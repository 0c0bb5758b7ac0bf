/-!
# Arenas

An arena stores values in the order of their arrival and hands out a typed handle for each, so that
the handle of one arena is no handle of another.
-/

namespace MapInference

/-- Handles are indices of a type of their own. -/
class Handle (κ : Type) where
  index : κ → Nat
  ofIndex : Nat → κ

structure Arena (κ β : Type) where
  values : List β := []
  deriving Repr, DecidableEq

namespace Arena

variable {κ β : Type}

def size (a : Arena κ β) : Nat := a.values.length

def isEmpty (a : Arena κ β) : Bool := a.values.isEmpty

def push (a : Arena κ β) (b : β) : Arena κ β := ⟨a.values ++ [b]⟩

@[simp] theorem values_push (a : Arena κ β) (b : β) : (a.push b).values = a.values ++ [b] := rfl

@[simp] theorem size_push (a : Arena κ β) (b : β) : (a.push b).size = a.size + 1 := by
  simp [size]

variable [Handle κ]

def nextKey (a : Arena κ β) : κ := Handle.ofIndex a.values.length

def contains (a : Arena κ β) (key : κ) : Bool := decide (Handle.index key < a.values.length)

def get? (a : Arena κ β) (key : κ) : Option β := a.values[Handle.index key]?

/-- Applies `f` to the value of a handle and leaves an arena without that handle as it is. -/
def modify (a : Arena κ β) (key : κ) (f : β → β) : Arena κ β :=
  ⟨a.values.modify (Handle.index key) f⟩

def set (a : Arena κ β) (key : κ) (b : β) : Arena κ β := a.modify key fun _ => b

@[simp] theorem size_modify (a : Arena κ β) (key : κ) (f : β → β) :
    (a.modify key f).size = a.size := by
  simp [size, modify]

@[simp] theorem size_set (a : Arena κ β) (key : κ) (b : β) : (a.set key b).size = a.size := by
  simp [set]

end Arena
end MapInference
