import Scc.Ir.RoundTrip
import Scc.Text.Numeral
import Scc.Text.Tokens
import Scc.Transition.Runs
import Scc.Transition.Code
import Scc.Cc1.ConditionalSelection
import Scc.Cc2.Qbe.OptmProofs
import Scc.Cc1.Code
import Scc.Cc1.StmtSimulation
import Scc.Cc2.Parser
import Scc.Cc2.Qbe.CgenProofs
import Scc.Ir.Pipeline
import Scc.Libc.Stdio.ReadProofs
import Scc.Libmach.Coff32Layout
import Scc.Libmach.Coff32Read
import Scc.Libmach.Coff32SymbolsProofs
import Scc.Libmach.PackFormatProofs
import Scc.Libmach.Coff32Inside
import Scc.Libmach.Elf64Inside
import Scc.Libc.Stdlib.HeapRuns
import Scc.Ir.Data
import Scc.Ir.Enumerations
import Scc.Cc1.TagsProofs
import Scc.Cc1.LocalTypes
import Scc.Cc1.RedeclarationsProofs
import Scc.Make.BuildOrder
import Scc.Make.MacrosProofs
import Scc.Make.Suffixes
import Scc.Ar.SymdefsIndex
import Scc.Ar.EditPlaces
import Scc.Ar.RanlibProofs
import Scc.Ar.Walk
import Scc.Ld.LibraryProofs
import Scc.Ld.SectionProofs
import Scc.Libc.Wchar.Utf8Proofs
import Scc.As.FilesProofs
import Scc.Cc1.Commutative
import Scc.Cc1.Reduction
import Scc.Cc1.Reassociation
import Scc.Cc2.SymbolProofs
import Scc.Cc1.NumbersProofs
import Scc.Cc1.LayoutProofs
import Scc.Cc1.EqualityProofs
import Scc.Cc1.CallProofs
import Scc.Cc1.Shifts
import Scc.Cc1.Switch
import Scc.Cc1.Pointers
import Scc.As.Branch
import Scc.As.Match
import Scc.As.Indexed
import Scc.As.Naming
import Scc.As.Numbers
import Scc.As.FieldsProofs
import Scc.As.ValuesProofs
import Scc.Cc1.Printed
import Scc.Cc1.Strings
import Scc.Cc2.Qbe.Casts
import Scc.Cc2.Qbe.Code
import Scc.Cc2.Qbe.Function
import Scc.Cc2.Qbe.FunctionLabels
import Scc.Cc2.Qbe.FunctionProofs
import Scc.Cc1.CommentsProofs
import Scc.Libc.Stdlib.QsortProofs
import Scc.Libc.Stdlib.Bsearch
import Scc.Libc.Stdlib.Requests
import Scc.Libc.Stdlib.StrtolProofs
import Scc.Libc.Stdio.ConversionExact
import Scc.Libc.Stdio.Vsnprintf
import Scc.Libc.Stdio.Ungetc
import Scc.Libc.String.Strncmp
import Scc.Libc.String.Strtok
import Scc.Libscc.Alloc
import Scc.Libc.Time.StrftimeProofs
import Scc.Libc.Time.TzoneProofs
import Scc.Cc1.LineBuffer
import Scc.Cc1.ExpansionProofs
import Scc.Cc1.Restarts
import Scc.Cc1.SymbolRuns
