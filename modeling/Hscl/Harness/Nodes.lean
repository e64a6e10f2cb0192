import Mathlib.Logic.Function.Iterate
import Mathlib.Data.List.Nodup
import Hscl.Harness.Basic

/-! The `node_t` array the fair-lock harnesses build for `hfairlock_init`, and its tree shape. -/
namespace Hscl

/-- `node_t` of `hfairlock.h`, the fields the harnesses write. -/
structure Node where
  id : ℕ
  parent : ℕ
  weight : ℤ
  cs : ℕ
  bannedUntil : ℕ
  slice : ℕ
  deriving DecidableEq, Repr

/-- The node an `init_*_hierarchy` stores at index `i`: `id = i`, the given parent and weight,
`cs = 0`, `banned_until = now` and `slice = 0`. -/
def Node.fresh (i parent : ℕ) (weight : ℤ) (now : ℕ) : Node := ⟨i, parent, weight, 0, now, 0⟩

/-- An `init_*_hierarchy`: the node count it passes to `malloc`, and its stores into the array
in program order, as `(index, node)`. -/
structure NodeArray where
  numNodes : ℕ
  writes : List (ℕ × Node)
  deriving DecidableEq, Repr

namespace NodeArray

/-- `hierarchy[i]` once the stores are done: the last node stored at `i`, `none` if `i` is
never written. -/
def get? (a : NodeArray) (i : ℕ) : Option Node :=
  (a.writes.reverse.find? fun w => w.1 = i).map Prod.snd

/-- `hierarchy[i].parent`; `0` stands for an index never written. -/
def parent (a : NodeArray) (i : ℕ) : ℕ := ((a.get? i).map Node.parent).getD 0

/-- The stores write each allocated index once, in index order, each with its own index as
`id`. -/
structure WritesOnce (a : NodeArray) : Prop where
  indices : a.writes.map Prod.fst = List.range a.numNodes
  ids : ∀ w ∈ a.writes, w.2.id = w.1

theorem get?_of_mem {a : NodeArray} (hk : (a.writes.map Prod.fst).Nodup) {i : ℕ} {x : Node}
    (hx : (i, x) ∈ a.writes) : a.get? i = some x := by
  obtain ⟨w, hw⟩ := Option.isSome_iff_exists.mp
    ((List.find?_isSome (p := fun w : ℕ × Node => w.1 = i)).mpr
      ⟨(i, x), List.mem_reverse.mpr hx, by simp⟩)
  have hwi : w.1 = i := by simpa using List.find?_some hw
  have hwx := List.inj_on_of_nodup_map hk (List.mem_reverse.mp (List.mem_of_find?_eq_some hw)) hx hwi
  simp [get?, hw, hwx]

theorem WritesOnce.get? {a : NodeArray} (h : a.WritesOnce) {i : ℕ} {x : Node}
    (hx : (i, x) ∈ a.writes) : a.get? i = some x :=
  get?_of_mem (h.indices ▸ List.nodup_range _) hx

theorem WritesOnce.parent {a : NodeArray} (h : a.WritesOnce) {i : ℕ} {x : Node}
    (hx : (i, x) ∈ a.writes) : a.parent i = x.parent := by
  simp [NodeArray.parent, h.get? hx]

end NodeArray

/-- A parent map on `N` nodes that is a tree rooted at node `0`: the root is its own parent and
every other node's parent has a smaller index. -/
structure RootedTree (N : ℕ) where
  parent : ℕ → ℕ
  parent_zero : parent 0 = 0
  parent_lt : ∀ i, 0 < i → i < N → parent i < i

namespace RootedTree
variable {N : ℕ} (T : RootedTree N)

theorem iterate_le {i : ℕ} (hi : i < N) (k : ℕ) : T.parent^[k] i ≤ i - k := by
  induction k with
  | zero => simp
  | succ k ih =>
    rw [Function.iterate_succ_apply']
    rcases Nat.eq_zero_or_pos (T.parent^[k] i) with h0 | hpos
    · rw [h0, T.parent_zero]; exact Nat.zero_le _
    · have := T.parent_lt _ hpos (by omega)
      omega

theorem iterate_self {i : ℕ} (hi : i < N) : T.parent^[i] i = 0 :=
  Nat.eq_zero_of_le_zero ((T.iterate_le hi i).trans (by omega))

end RootedTree

end Hscl
