import Mathlib.Data.List.Basic

set_option linter.all false

/-! The tokens of a text: its maximal runs of characters that are no delimiters, as
successive calls of `strtok` yield them. -/
namespace Scc.Text
variable {α : Type}

def tokens (delim : α → Bool) (text : List α) : List (List α) :=
  (text.splitOnP delim).filter fun token => !token.isEmpty

/-- A token as a printer writes it: not empty, and without delimiters. -/
structure Plain (delim : α → Bool) (token : List α) : Prop where
  nonempty : token ≠ []
  undivided : ∀ c ∈ token, delim c = false

variable {delim : α → Bool}

theorem undivided_of_all {token : List α} (clear : token.all (fun c => !delim c) = true) :
    ∀ c ∈ token, delim c = false := by
  simpa using clear

@[simp] theorem tokens_nil : tokens delim [] = [] := rfl

theorem tokens_delim {sep : α} (divides : delim sep = true) (text : List α) :
    tokens delim (sep :: text) = tokens delim text := by
  simp [tokens, List.splitOnP_cons_eq_if_modifyHead, divides]

theorem Plain.tokens {token : List α} (plain : Plain delim token) :
    tokens delim token = [token] := by
  simp [Text.tokens, List.splitOnP_eq_singleton plain.undivided, plain.nonempty]

theorem Plain.tokens_append {token : List α} (plain : Plain delim token) {sep : α}
    (divides : delim sep = true) (text : List α) :
    Text.tokens delim (token ++ sep :: text) = token :: Text.tokens delim text := by
  simp [Text.tokens, List.splitOnP_append_cons_of_forall_mem plain.undivided sep divides,
    plain.nonempty]

/-- Tokens written each after a delimiter are read back. -/
theorem tokens_flatMap {sep : α} (divides : delim sep = true) {words : List (List α)}
    (plain : ∀ word ∈ words, Plain delim word) :
    tokens delim (words.flatMap fun word => sep :: word) = words := by
  induction words with
  | nil => rfl
  | cons word words ih =>
    have here := plain word List.mem_cons_self
    have later := ih fun word member => plain word (List.mem_cons_of_mem _ member)
    rw [List.flatMap_cons, List.cons_append, tokens_delim divides]
    cases words with
    | nil => simpa using here.tokens
    | cons next words =>
      rw [List.flatMap_cons, List.cons_append] at later ⊢
      rw [tokens_delim divides] at later
      rw [here.tokens_append divides, later]

/-- Lines that each end with a separator are read back, with nothing after the last one. -/
theorem splitOn_lines [DecidableEq α] {sep : α} {lines : List (List α)}
    (clean : ∀ line ∈ lines, sep ∉ line) :
    (lines.flatMap fun line => line ++ [sep]).splitOn sep = lines ++ [[]] := by
  induction lines with
  | nil => rfl
  | cons line lines ih =>
    have later := ih fun line member => clean line (List.mem_cons_of_mem _ member)
    have here : ∀ c ∈ line, (c == sep) = false := fun c member =>
      beq_false_of_ne fun same => clean line List.mem_cons_self (same ▸ member)
    rw [List.splitOn_eq_splitOnP] at later ⊢
    rw [List.flatMap_cons, List.append_assoc, List.singleton_append,
      List.splitOnP_append_cons_of_forall_mem here sep (by simp), later, List.cons_append]

/-- A run of characters of a kind, and what follows it, where the run is maximal. -/
structure Run (kind : α → Bool) (run rest : List α) : Prop where
  within : ∀ c ∈ run, kind c = true
  past : ∀ c ∈ rest.head?, kind c = false

namespace Run
variable {kind : α → Bool} {run rest : List α}

theorem takeWhile (maximal : Run kind run rest) : (run ++ rest).takeWhile kind = run := by
  rw [List.takeWhile_append_of_pos maximal.within]
  cases rest with
  | nil => exact List.append_nil run
  | cons c rest =>
    rw [List.takeWhile_cons_of_neg (Bool.eq_false_iff.mp (maximal.past c rfl))]
    exact List.append_nil run

/-- A text begins with one maximal run only. -/
theorem unique {run' rest' : List α} (maximal : Run kind run rest) (maximal' : Run kind run' rest')
    (same : run ++ rest = run' ++ rest') : run = run' ∧ rest = rest' := by
  have runs : run = run' := by rw [← maximal.takeWhile, same, maximal'.takeWhile]
  subst runs
  exact ⟨rfl, List.append_cancel_left same⟩

theorem split (kind : α → Bool) (text : List α) :
    Run kind (text.takeWhile kind) (text.dropWhile kind) ∧ text.takeWhile kind ++ text.dropWhile kind = text := by
  refine ⟨⟨fun c member => List.all_eq_true.mp List.all_takeWhile c member, fun c first => ?_⟩, List.takeWhile_append_dropWhile⟩
  have := List.head?_dropWhile_not kind text
  rw [Option.mem_def.mp first] at this
  exact Bool.eq_false_iff.mpr fun yes => by simp [yes] at this

end Run

end Scc.Text
