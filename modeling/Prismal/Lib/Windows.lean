import Mathlib.Data.List.Chain
import Mathlib.Data.List.Infix

namespace Prismal.Lib
set_option autoImplicit true

/-! Windows over a list: each begins `stride` entries after the one before, and the one that
reaches the end is the last. -/

/-- The windows of at most `size` entries. -/
inductive Windows (size stride : Nat) : List α → List (List α) → Prop
  | last {xs : List α} : xs ≠ [] → xs.length ≤ size → Windows size stride xs [xs]
  | next {xs : List α} {ws : List (List α)} : size < xs.length →
      Windows size stride (xs.drop stride) ws → Windows size stride xs (xs.take size :: ws)

def unlapped (overlap : Nat) : List (List α) → List α
  | [] => []
  | w :: ws => w ++ (ws.map (List.drop overlap)).flatten

namespace Windows
variable {size stride : Nat} {xs w : List α} {ws : List (List α)}

theorem head?_eq (h : Windows size stride xs ws) : ws.head? = some (xs.take size) := by
  cases h with
  | last _ hlen => rw [List.head?_cons, List.take_of_length_le hlen]
  | next => rfl

theorem length_le (h : Windows size stride xs ws) : ∀ w ∈ ws, w.length ≤ size := by
  induction h with
  | last _ hlen =>
    intro w hw
    cases List.mem_singleton.1 hw
    exact hlen
  | next _ _ ih =>
    intro w hw
    rcases List.mem_cons.1 hw with rfl | hw
    · exact List.length_take_le _ _
    · exact ih w hw

theorem ne_nil (h : Windows size stride xs ws) (hsize : 0 < size) : ∀ w ∈ ws, w ≠ [] := by
  induction h with
  | last hne _ =>
    intro w hw
    cases List.mem_singleton.1 hw
    exact hne
  | next hlt _ ih =>
    intro w hw
    rcases List.mem_cons.1 hw with rfl | hw
    · intro hnil
      have hlen := congrArg List.length hnil
      rw [List.length_take, List.length_nil] at hlen
      omega
    · exact ih w hw

theorem getElem?_eq (h : Windows size stride xs ws) (hj : ws[j]? = some w) :
    w = (xs.drop (j * stride)).take size := by
  induction h generalizing j with
  | last _ hlen =>
    cases j with
    | zero =>
      cases hj
      rw [Nat.zero_mul, List.drop_zero, List.take_of_length_le hlen]
    | succ j => cases hj
  | next _ _ ih =>
    cases j with
    | zero =>
      cases hj
      rw [Nat.zero_mul, List.drop_zero]
    | succ j =>
      rw [ih hj, List.drop_drop, Nat.succ_mul, Nat.add_comm]

theorem isChain (h : Windows size stride xs ws) (hpos : 0 < stride) (hle : stride ≤ size) :
    ws.IsChain fun v w => v.length = size ∧ size - stride < w.length ∧
      v.drop stride = w.take (size - stride) := by
  induction h with
  | last => exact List.isChain_singleton _
  | next hlt hws ih =>
    refine List.isChain_cons.2 ⟨fun w hw => ?_, ih⟩
    rw [hws.head?_eq, Option.mem_some_iff] at hw
    subst hw
    apply And.intro
    · rw [List.length_take]
      omega
    · apply And.intro
      · rw [List.length_take, List.length_drop]
        omega
      · rw [List.take_take, List.drop_take, Nat.min_eq_left (Nat.sub_le size stride)]

theorem unlapped_eq (h : Windows size stride xs ws) (hle : stride ≤ size) :
    unlapped (size - stride) ws = xs := by
  induction h with
  | last => rw [unlapped, List.map_nil, List.flatten_nil, List.append_nil]
  | @next xs ws hlt hws ih =>
    have hrest : xs.drop size = (xs.drop stride).drop (size - stride) := by
      rw [List.drop_drop, Nat.add_sub_cancel' hle]
    -- the first of the rest begins at `stride`, so without the overlap it goes on at `size`
    have htail : (ws.map (List.drop (size - stride))).flatten = xs.drop size := by
      cases ws with
      | nil => cases hws
      | cons w ws =>
        have hw := hws.head?_eq
        cases hw
        rw [unlapped] at ih
        have hlong : size - stride ≤ ((xs.drop stride).take size).length := by
          rw [List.length_take, List.length_drop]
          omega
        rw [List.map_cons, List.flatten_cons, hrest, ← List.drop_append_of_le_length hlong, ih]
    rw [unlapped, htail, List.take_append_drop]

theorem covers (h : Windows size stride xs ws) (hle : stride ≤ size) (hp : p < xs.length) :
    ∃ j w, ws[j]? = some w ∧ j * stride ≤ p ∧ p < j * stride + w.length := by
  induction h generalizing p with
  | @last xs _ _ => exact ⟨0, xs, rfl, by omega, by omega⟩
  | @next xs ws hlt hws ih =>
    by_cases hin : p < stride
    · refine ⟨0, xs.take size, rfl, by omega, ?_⟩
      rw [List.length_take]
      omega
    · have hp' : p - stride < (xs.drop stride).length := by
        rw [List.length_drop]
        omega
      obtain ⟨j, w, hj, hle', hlt'⟩ := ih hp'
      refine ⟨j + 1, w, hj, ?_, ?_⟩
      · rw [Nat.succ_mul]
        omega
      · rw [Nat.succ_mul]
        omega

end Windows

end Prismal.Lib
