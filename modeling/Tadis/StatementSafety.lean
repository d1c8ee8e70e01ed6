import Tadis.EngineInvariants
import Tadis.NameResolution
import Tadis.TableScan

/-!
# Statements that abort

The binder and the expressions assert what the conditions of a query have to be, and the heaps assert
that they find the pages they look at first, that a row does not run over its page, and that the
header of a file fits into page 0. A statement that meets none of these is executed or refused.
-/

namespace Tadis

open BufferPool TableHeap

namespace TableHeap

variable {n : ℕ} {s : BufferPool n} {f : Fin n} {record : Record} {slots : List Slot} {pid : ℕ}

end TableHeap

namespace Engine

variable {floatSub : UInt32 → UInt32 → ℤ} {e : Engine} {stmt : QueryStmt} {b : BoundExecuter}
  {run run' : Running} {sql table : Bytes} {schema : Schema} {s : BufferPool poolSize} {rc : RC}
  {select : SelectStmt}

/-- A tuple that a new scanner over the heap delivers. -/
def Delivers (s : BufferPool poolSize) (t : Tuple) : Prop :=
  ∃ c outs rc c', RecordScanner.make s = some c ∧
    Pull.Drains RecordScanner.seqScanNext c outs rc c' ∧
      ∃ row ∈ outs, t = { data := row.2, rid := row.1 }

/-- The heaps are those of the tables of the catalog. They consist of record pages, whatever pins are
left over in their pools, and hold well-formed rows. -/
structure Sound (e : Engine) : Prop where
  tables : e.SameTables
  heap : ∀ name s, e.heaps.lookup name = some s → TableState s
  current : ∀ name s, e.heaps.lookup name = some s → NoCurrentPage s ∨ Addressable s.currentPid
  rows : ∀ name schema s, e.catalog.getTable name = some schema → e.heaps.lookup name = some s →
    ∀ t, Delivers s t → WellFormed schema t

end Engine

end Tadis
