import Mathlib

/-! Blocks inside a list: checked overwriting, resizing, and an element-by-element
forward copy whose source and destination may overlap. A write outside the list
is the value `none`, never a silently extended list. -/
namespace TzzeroHttp.ListBlock

variable {α : Type*}

def window (v : List α) (lo hi : ℕ) : List α := (v.drop lo).take (hi - lo)

def blit (v : List α) (pos : ℕ) (src : List α) : Option (List α) :=
  if pos + src.length ≤ v.length then
    some (v.take pos ++ src ++ v.drop (pos + src.length))
  else none

def resize (fill : α) (v : List α) (n : ℕ) : List α :=
  v.take n ++ List.replicate (n - v.length) fill

/-- Copy `n` elements from `src` to `dst`, lowest position first. -/
def copyForward : ℕ → List α → ℕ → ℕ → Option (List α)
  | 0, v, _, _ => some v
  | n + 1, v, src, dst =>
    match v[src]? with
    | none => none
    | some x => if dst < v.length then copyForward n (v.set dst x) (src + 1) (dst + 1) else none

theorem length_window {v : List α} {lo hi : ℕ} (h : hi ≤ v.length) :
    (window v lo hi).length = hi - lo := by
  simp only [window, List.length_take, List.length_drop]
  omega

theorem getElem?_window (v : List α) (lo hi i : ℕ) :
    (window v lo hi)[i]? = if i < hi - lo then v[lo + i]? else none := by
  simp only [window, List.getElem?_take, List.getElem?_drop]

@[simp] theorem window_self (v : List α) (lo : ℕ) : window v lo lo = [] := by
  simp [window]

theorem window_append {v : List α} {lo mid hi : ℕ} (h₁ : lo ≤ mid) (h₂ : mid ≤ hi) :
    window v lo mid ++ window v mid hi = window v lo hi := by
  have hs : v.drop mid = (v.drop lo).drop (mid - lo) := by
    rw [List.drop_drop]
    congr 1
    omega
  have hn : hi - lo = (mid - lo) + (hi - mid) := by omega
  simp only [window, hs, hn, List.take_add]

theorem drop_window (v : List α) (lo hi k : ℕ) :
    (window v lo hi).drop k = window v (lo + k) hi := by
  simp only [window, List.drop_take, List.drop_drop]
  congr 1
  omega

theorem take_window {v : List α} {lo hi k : ℕ} (h : lo + k ≤ hi) :
    (window v lo hi).take k = window v lo (lo + k) := by
  simp only [window, List.take_take]
  congr 1
  omega

theorem window_congr {v w : List α} {lo lo' n : ℕ}
    (h : ∀ i, i < n → v[lo + i]? = w[lo' + i]?) :
    window v lo (lo + n) = window w lo' (lo' + n) := by
  apply List.ext_getElem?
  intro i
  simp only [getElem?_window, Nat.add_sub_cancel_left]
  split_ifs with hi
  · exact h i hi
  · rfl

theorem blit_eq_some {v src : List α} {pos : ℕ} (h : pos + src.length ≤ v.length) :
    blit v pos src = some (v.take pos ++ src ++ v.drop (pos + src.length)) := by
  simp [blit, h]

theorem blit_length {v src w : List α} {pos : ℕ} (h : blit v pos src = some w) :
    w.length = v.length := by
  unfold blit at h
  split_ifs at h with hp
  obtain rfl := Option.some.inj h
  simp only [List.length_append, List.length_take, List.length_drop]
  omega

theorem window_blit {v src w : List α} {pos : ℕ} (h : blit v pos src = some w) :
    window w pos (pos + src.length) = src := by
  unfold blit at h
  split_ifs at h with hp
  obtain rfl := Option.some.inj h
  have hl : (v.take pos).length = pos := by
    rw [List.length_take]
    omega
  simp only [window, List.append_assoc, Nat.add_sub_cancel_left]
  rw [List.drop_append_of_le_length hl.ge, List.drop_eq_nil_of_le hl.le, List.nil_append,
    List.take_left]

theorem window_blit_before {v src w : List α} {pos lo hi : ℕ} (h : blit v pos src = some w)
    (hi' : hi ≤ pos) : window w lo hi = window v lo hi := by
  unfold blit at h
  split_ifs at h with hp
  obtain rfl := Option.some.inj h
  apply List.ext_getElem?
  intro i
  simp only [getElem?_window]
  split_ifs with hlt
  · have hlen : lo + i < (v.take pos).length := by
      rw [List.length_take]
      omega
    rw [List.append_assoc, List.getElem?_append_left hlen, List.getElem?_take_of_lt (by omega)]
  · rfl

theorem window_blit_after {v src w : List α} {pos lo hi : ℕ} (h : blit v pos src = some w)
    (hlo : pos + src.length ≤ lo) : window w lo hi = window v lo hi := by
  unfold blit at h
  split_ifs at h with hp
  obtain rfl := Option.some.inj h
  apply List.ext_getElem?
  intro i
  simp only [getElem?_window]
  split_ifs with hlt
  · have hlen : (v.take pos ++ src).length = pos + src.length := by
      rw [List.length_append, List.length_take]
      omega
    rw [List.getElem?_append_right (by omega), List.getElem?_drop, hlen]
    congr 1
    omega
  · rfl

theorem length_resize (fill : α) (v : List α) (n : ℕ) : (resize fill v n).length = n := by
  simp only [resize, List.length_append, List.length_take, List.length_replicate]
  omega

theorem window_resize {fill : α} {v : List α} {n lo hi : ℕ} (hn : v.length ≤ n)
    (hi' : hi ≤ v.length) : window (resize fill v n) lo hi = window v lo hi := by
  apply List.ext_getElem?
  intro i
  simp only [getElem?_window, resize, List.take_of_length_le hn]
  split_ifs with hlt
  · rw [List.getElem?_append_left (by omega)]
  · rfl

/-- Forward copying towards a lower position is safe and moves the block as it was:
each source element is read before it can be overwritten. -/
theorem copyForward_spec (n src dst : ℕ) (v : List α) (hd : dst ≤ src)
    (hs : src + n ≤ v.length) :
    ∃ w, copyForward n v src dst = some w ∧ w.length = v.length ∧
      ∀ i, w[i]? = if dst ≤ i ∧ i < dst + n then v[src + (i - dst)]? else v[i]? := by
  induction n generalizing v src dst with
  | zero =>
    refine ⟨v, rfl, rfl, fun i => ?_⟩
    rw [if_neg (by omega)]
  | succ n ih =>
    have hsrc : src < v.length := by omega
    obtain ⟨w, hw, hlen, hget⟩ := ih (src + 1) (dst + 1) (v.set dst v[src])
      (by omega) (by rw [List.length_set]; omega)
    refine ⟨w, ?_, by rw [hlen, List.length_set], fun i => ?_⟩
    · simp only [copyForward, List.getElem?_eq_getElem hsrc, if_pos (show dst < v.length by omega)]
      exact hw
    · rw [hget i]
      by_cases hi : dst + 1 ≤ i ∧ i < dst + 1 + n
      · rw [if_pos hi, if_pos (by omega), List.getElem?_set_ne (by omega)]
        congr 1
        omega
      · rw [if_neg hi]
        by_cases he : i = dst
        · subst he
          rw [if_pos (by omega), List.getElem?_set_self (by omega), Nat.sub_self, Nat.add_zero,
            List.getElem?_eq_getElem hsrc]
        · rw [if_neg (by omega), List.getElem?_set_ne (Ne.symm he)]

theorem window_copyForward {n src dst : ℕ} {v w : List α} (hd : dst ≤ src)
    (hs : src + n ≤ v.length) (h : copyForward n v src dst = some w) :
    w.length = v.length ∧ window w dst (dst + n) = window v src (src + n) := by
  obtain ⟨w', hw', hlen, hget⟩ := copyForward_spec n src dst v hd hs
  obtain rfl := Option.some.inj (hw'.symm.trans h)
  refine ⟨hlen, window_congr fun i hi => ?_⟩
  rw [hget, if_pos (by omega)]
  congr 1
  omega

end TzzeroHttp.ListBlock
