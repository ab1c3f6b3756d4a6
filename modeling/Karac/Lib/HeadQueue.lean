import Mathlib

/-! A queue in a growing buffer. A counter marks its front: the elements before it are dead, and popping only moves
the counter. Now and then the dead elements may be dropped. -/

namespace Karac.Lib

variable {α : Type*}

structure HeadQueue (α : Type*) where
  data : List α
  head : ℕ
  head_le : head ≤ data.length

namespace HeadQueue

variable {q : HeadQueue α}

/-- The live elements, front first. -/
def toList (q : HeadQueue α) : List α := q.data.drop q.head

def empty : HeadQueue α := ⟨[], 0, le_refl 0⟩

def push (q : HeadQueue α) (x : α) : HeadQueue α :=
  ⟨q.data ++ [x], q.head, by simpa using Nat.le_succ_of_le q.head_le⟩

def pop (q : HeadQueue α) (h : q.head < q.data.length) : HeadQueue α := ⟨q.data, q.head + 1, h⟩

/-- The live elements move to the start of the buffer. -/
def compact (q : HeadQueue α) : HeadQueue α := ⟨q.toList, 0, Nat.zero_le _⟩

@[simp] theorem toList_empty : (empty : HeadQueue α).toList = [] := rfl

@[simp] theorem toList_push (q : HeadQueue α) (x : α) : (q.push x).toList = q.toList ++ [x] :=
  List.drop_append_of_le_length q.head_le

@[simp] theorem toList_compact (q : HeadQueue α) : q.compact.toList = q.toList := rfl

@[simp] theorem length_toList (q : HeadQueue α) : q.toList.length = q.data.length - q.head := List.length_drop

/-- The element under the counter is the front. -/
theorem toList_eq_cons (h : q.head < q.data.length) : q.toList = q.data[q.head] :: (q.pop h).toList :=
  List.drop_eq_getElem_cons h

/-- The counter has reached the end when no element is live. -/
theorem length_eq_head_iff : q.data.length = q.head ↔ q.toList = [] := by
  have hle := q.head_le
  rw [toList, List.drop_eq_nil_iff]
  omega

end HeadQueue

end Karac.Lib
