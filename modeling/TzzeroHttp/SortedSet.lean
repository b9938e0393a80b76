import Mathlib

/-! An ordered set kept as its strictly increasing list of elements, with insertion, removal
and the cut at a bound that `std::set` offers. -/
namespace TzzeroHttp.SortedSet

variable {α : Type*} [LinearOrder α]

def insertList (x : α) : List α → List α
  | [] => [x]
  | y :: ys => if x < y then x :: y :: ys else if x = y then y :: ys else y :: insertList x ys

theorem mem_insertList {x z : α} {l : List α} : z ∈ insertList x l ↔ z = x ∨ z ∈ l := by
  induction l with
  | nil => simp [insertList]
  | cons y ys ih =>
    simp only [insertList]
    split_ifs with hlt heq
    · simp
    · simp [heq]
    · simp only [List.mem_cons, ih]
      exact or_left_comm

theorem insertList_sorted {x : α} {l : List α} (h : l.Pairwise (· < ·)) :
    (insertList x l).Pairwise (· < ·) := by
  induction l with
  | nil => simp [insertList]
  | cons y ys ih =>
    obtain ⟨hy, hys⟩ := List.pairwise_cons.mp h
    simp only [insertList]
    split_ifs with hlt heq
    · refine List.pairwise_cons.mpr ⟨fun z hz => ?_, h⟩
      rcases List.mem_cons.mp hz with rfl | hz
      · exact hlt
      · exact hlt.trans (hy z hz)
    · exact h
    · refine List.pairwise_cons.mpr ⟨fun z hz => ?_, ih hys⟩
      rcases mem_insertList.mp hz with rfl | hz
      · exact lt_of_le_of_ne (not_lt.mp hlt) (Ne.symm heq)
      · exact hy z hz

/-- The elements in increasing order, each once. -/
structure OrderedSet (α : Type*) [LinearOrder α] where
  toList : List α
  sorted : toList.Pairwise (· < ·)

namespace OrderedSet

instance : Membership α (OrderedSet α) := ⟨fun s x => x ∈ s.toList⟩

instance : EmptyCollection (OrderedSet α) := ⟨⟨[], List.Pairwise.nil⟩⟩

@[simp] theorem not_mem_empty (x : α) : x ∉ (∅ : OrderedSet α) := List.not_mem_nil

def insert (s : OrderedSet α) (x : α) : OrderedSet α := ⟨insertList x s.toList, insertList_sorted s.sorted⟩

def erase (s : OrderedSet α) (x : α) : OrderedSet α :=
  ⟨s.toList.erase x, s.sorted.sublist List.erase_sublist⟩

def below (s : OrderedSet α) (b : α) : List α := s.toList.takeWhile (· < b)

def notBelow (s : OrderedSet α) (b : α) : OrderedSet α :=
  ⟨s.toList.dropWhile (· < b), s.sorted.sublist (List.dropWhile_sublist _)⟩

@[simp] theorem mem_insert {s : OrderedSet α} {x z : α} : z ∈ s.insert x ↔ z = x ∨ z ∈ s :=
  mem_insertList

theorem nodup (s : OrderedSet α) : s.toList.Nodup := s.sorted.imp ne_of_lt

@[simp] theorem mem_erase {s : OrderedSet α} {x z : α} : z ∈ s.erase x ↔ z ≠ x ∧ z ∈ s :=
  s.nodup.mem_erase_iff

theorem takeWhile_lt {l : List α} (h : l.Pairwise (· < ·)) (b : α) :
    (∀ x, x ∈ l.takeWhile (· < b) ↔ x ∈ l ∧ x < b) ∧
      ∀ x, x ∈ l.dropWhile (· < b) ↔ x ∈ l ∧ b ≤ x := by
  induction l with
  | nil => simp
  | cons y ys ih =>
    obtain ⟨hy, hys⟩ := List.pairwise_cons.mp h
    obtain ⟨htake, hdrop⟩ := ih hys
    by_cases hb : y < b
    · simp only [List.takeWhile_cons, List.dropWhile_cons, hb, decide_true, if_true, List.mem_cons,
        htake, hdrop]
      constructor
      · intro x
        constructor
        · rintro (rfl | ⟨hx, hxb⟩)
          · exact ⟨.inl rfl, hb⟩
          · exact ⟨.inr hx, hxb⟩
        · rintro ⟨rfl | hx, hxb⟩
          · exact .inl rfl
          · exact .inr ⟨hx, hxb⟩
      · intro x
        constructor
        · rintro ⟨hx, hbx⟩
          exact ⟨.inr hx, hbx⟩
        · rintro ⟨rfl | hx, hbx⟩
          · exact absurd hb (not_lt.mpr hbx)
          · exact ⟨hx, hbx⟩
    · have hall : ∀ x ∈ y :: ys, b ≤ x := by
        intro x hx
        rcases List.mem_cons.mp hx with rfl | hx
        · exact not_lt.mp hb
        · exact (not_lt.mp hb).trans (hy x hx).le
      simp only [List.takeWhile_cons, List.dropWhile_cons, hb, decide_false, Bool.false_eq_true,
        if_false]
      constructor
      · intro x
        simp only [List.not_mem_nil, false_iff, not_and, not_lt]
        exact hall x
      · intro x
        exact ⟨fun hx => ⟨hx, hall x hx⟩, And.left⟩

theorem mem_below {s : OrderedSet α} {b x : α} : x ∈ s.below b ↔ x ∈ s ∧ x < b :=
  (takeWhile_lt s.sorted b).1 x

theorem mem_notBelow {s : OrderedSet α} {b x : α} : x ∈ s.notBelow b ↔ x ∈ s ∧ b ≤ x :=
  (takeWhile_lt s.sorted b).2 x

theorem below_eq_filter {s : OrderedSet α} {b : α} {p : α → Prop} [DecidablePred p]
    (hp : ∀ x ∈ s, x < b ↔ p x) : s.below b = s.toList.filter p := by
  have hcut : ∀ l : List α, l.Pairwise (· < ·) → (∀ x ∈ l, x < b ↔ p x) →
      l.takeWhile (· < b) = l.filter p := by
    intro l hl hlp
    induction l with
    | nil => rfl
    | cons y ys ih =>
      obtain ⟨hy, hys⟩ := List.pairwise_cons.mp hl
      have hrest := ih hys fun x hx => hlp x (by simp [hx])
      have hfirst := hlp y (by simp)
      by_cases hb : y < b
      · simp [hb, hfirst.mp hb, hrest]
      · have hnone : ∀ x ∈ y :: ys, ¬ p x := by
          intro x hx hpx
          have hxb := (hlp x hx).mpr hpx
          rcases List.mem_cons.mp hx with rfl | hx
          · exact hb hxb
          · exact hb ((hy x hx).trans hxb)
        rw [List.takeWhile_cons_of_neg (by simpa using hb), eq_comm, List.filter_eq_nil_iff]
        simpa using hnone
  exact hcut s.toList s.sorted hp

end OrderedSet

end TzzeroHttp.SortedSet
