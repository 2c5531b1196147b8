import UserPageCache.Lib.Bytes
import Mathlib.Data.List.Nodup
import Mathlib.Logic.Function.Basic

-- Cells that are stored one at a time, each at its address.
namespace Stores

variable {ι α : Type*} [DecidableEq ι]

def store (data : ι → α) (cells : List (ι × α)) : ι → α :=
  cells.foldl (fun data cell => Function.update data cell.1 cell.2) data

theorem store_nil (data : ι → α) : store data [] = data := rfl

theorem store_append (data : ι → α) (cells more : List (ι × α)) :
    store data (cells ++ more) = store (store data cells) more :=
  List.foldl_append

-- Where no address comes twice, the order does not show.
theorem store_perm (data : ι → α) {cells cells' : List (ι × α)}
    (hn : (cells.map Prod.fst).Nodup) (hp : cells.Perm cells') :
    store data cells = store data cells' := by
  refine hp.foldl_eq' (fun x hx y hy z => ?_) data
  by_cases hxy : x = y
  · rw [hxy]
  · have hne : x.1 ≠ y.1 := fun heq => hxy (List.inj_on_of_nodup_map hn hx hy heq)
    exact Function.update_comm hne x.2 y.2 z

-- A range of cells is stored as a whole.
theorem store_range (data : ℕ → α) (base len : ℕ) (src : ℕ → α) :
    store data ((List.range len).map fun i => (base + i, src i)) =
      Bytes.write data base len src := by
  induction len with
  | zero => rw [List.range_zero, List.map_nil, store_nil, Bytes.write_zero]
  | succ len ih =>
      rw [List.range_succ, List.map_append, store_append, ih]
      funext i
      simp only [store, List.map_cons, List.map_nil, List.foldl_cons, List.foldl_nil,
        Function.update_apply, Bytes.write]
      by_cases hlast : i = base + len
      · rw [if_pos hlast, if_pos (by omega), hlast, Nat.add_sub_cancel_left]
      · rw [if_neg hlast]
        by_cases hin : base ≤ i ∧ i < base + len
        · rw [if_pos hin, if_pos (by omega)]
        · rw [if_neg hin, if_neg (by omega)]

end Stores
