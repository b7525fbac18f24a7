/-! Values by their keys. -/

set_option autoImplicit false

namespace UciProtocol

structure Table (α : Type) where
  entries : List (String × α)
  distinct : (entries.map Prod.fst).Nodup
  deriving DecidableEq, Repr

namespace Table

variable {α : Type}

def empty : Table α := ⟨[], List.nodup_nil⟩

def keys (table : Table α) : List String := table.entries.map Prod.fst

def get? (table : Table α) (key : String) : Option α := table.entries.lookup key

def insert (table : Table α) (key : String) (value : α) : Table α where
  entries := (key, value) :: table.entries.filter (·.1 ≠ key)
  distinct := by
    refine List.nodup_cons.2 ⟨?_, table.distinct.sublist (List.filter_sublist.map _)⟩
    simp

end Table

end UciProtocol
