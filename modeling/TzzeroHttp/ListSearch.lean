import Mathlib

/-! First occurrence of a pattern in a list, and cutting a list at a two-element
delimiter. The delimiter facts are what a stream reader needs: a cut that has been
found stays where it is when more elements arrive. -/
namespace TzzeroHttp.ListSearch

variable {α : Type*} [DecidableEq α]

/-- Position of the first occurrence of `pat`. -/
def search (pat : List α) : List α → Option ℕ
  | [] => if pat = [] then some 0 else none
  | x :: xs => if pat <+: x :: xs then some 0 else (search pat xs).map (· + 1)

theorem search_cons {pat xs : List α} {x : α} (h : ¬ pat <+: x :: xs) :
    search pat (x :: xs) = (search pat xs).map (· + 1) := by
  rw [search, if_neg h]

theorem search_eq_none_iff (pat xs : List α) : search pat xs = none ↔ ¬ pat <:+: xs := by
  induction xs with
  | nil => simp [search]
  | cons x xs ih =>
    simp only [search]
    split_ifs with h
    · simp [h.isInfix]
    · rw [Option.map_eq_none_iff, ih, List.infix_cons_iff]
      simp [h]

variable {a b : α}

theorem search_line (hab : a ≠ b) {line : List α} (h : ¬ [a, b] <:+: line) (rest : List α) :
    search [a, b] (line ++ [a, b] ++ rest) = some line.length := by
  induction line with
  | nil => simp [search]
  | cons x line ih =>
    have hline : ¬ [a, b] <:+: line := fun hh => h (List.infix_cons hh)
    have hpre : ¬ [a, b] <+: x :: (line ++ [a, b] ++ rest) := by
      intro hp
      cases line with
      | nil =>
        simp only [List.nil_append, List.cons_append, List.cons_prefix_cons] at hp
        exact hab hp.2.1.symm
      | cons y line =>
        simp only [List.cons_append, List.cons_prefix_cons] at hp
        obtain ⟨rfl, rfl, -⟩ := hp
        exact h ⟨[], line, rfl⟩
    simp only [List.cons_append, List.append_assoc, List.nil_append] at ih hpre ⊢
    simp [search, hpre, ih hline]

/-- What a successful search says: the list is a line without the delimiter, the
delimiter, and the rest. -/
theorem search_eq_some {xs : List α} {i : ℕ} (h : search [a, b] xs = some i) :
    xs = xs.take i ++ [a, b] ++ xs.drop (i + 2) ∧ ¬ [a, b] <:+: xs.take i ∧
      (xs.take i).length = i := by
  induction xs generalizing i with
  | nil => simp [search] at h
  | cons x xs ih =>
    simp only [search] at h
    split_ifs at h with hp
    · obtain rfl := Option.some.inj h
      obtain ⟨t, ht⟩ := hp
      simp [← ht]
    · obtain ⟨j, hj, rfl⟩ := Option.map_eq_some_iff.mp h
      obtain ⟨heq, hfree, hlen⟩ := ih hj
      refine ⟨?_, ?_, by simpa using hlen⟩
      · have hd : (x :: xs).drop (j + 1 + 2) = xs.drop (j + 2) := by
          rw [show j + 1 + 2 = (j + 2) + 1 by omega, List.drop_succ_cons]
        rw [hd, List.take_succ_cons, List.cons_append, List.cons_append, ← heq]
      · rw [List.take_succ_cons, List.infix_cons_iff]
        rintro (hpre | hinf)
        · exact hp (hpre.trans (List.cons_prefix_cons.mpr ⟨rfl, List.take_prefix _ _⟩))
        · exact hfree hinf

theorem search_lt_length {xs : List α} {i : ℕ} (h : search [a, b] xs = some i) :
    i + 2 ≤ xs.length := by
  obtain ⟨heq, -, hlen⟩ := search_eq_some h
  have := congrArg List.length heq
  simp only [List.length_append, List.length_cons, List.length_nil] at this
  omega

theorem search_append (hab : a ≠ b) {xs : List α} {i : ℕ} (h : search [a, b] xs = some i)
    (ys : List α) : search [a, b] (xs ++ ys) = some i := by
  obtain ⟨heq, hfree, hlen⟩ := search_eq_some h
  have hcut := search_line hab hfree (xs.drop (i + 2) ++ ys)
  rw [← List.append_assoc, ← heq, hlen] at hcut
  exact hcut

theorem cut_unique (hab : a ≠ b) {line line' rest rest' : List α} (h : ¬ [a, b] <:+: line)
    (h' : ¬ [a, b] <:+: line') (heq : line ++ [a, b] ++ rest = line' ++ [a, b] ++ rest') :
    line = line' ∧ rest = rest' := by
  have hlen : line.length = line'.length := by
    have hs := search_line hab h rest
    rw [heq, search_line hab h' rest'] at hs
    exact (Option.some.inj hs).symm
  rw [List.append_assoc, List.append_assoc] at heq
  obtain ⟨hl, hr⟩ := List.append_inj heq hlen
  exact ⟨hl, List.append_cancel_left hr⟩

/-- The list cut at every delimiter; what follows the last one is the last piece. -/
def pieces (a b : α) : List α → List (List α)
  | [] => [[]]
  | [x] => [[x]]
  | x :: y :: xs =>
    if x = a ∧ y = b then [] :: pieces a b xs
    else (pieces a b (y :: xs)).modifyHead (x :: ·)

theorem pieces_ne_nil (xs : List α) : pieces a b xs ≠ [] := by
  fun_induction pieces a b xs with
  | case1 => simp
  | case2 x => simp
  | case3 x y xs hcut ih => simp
  | case4 x y xs hcut ih => simpa using ih

/-- The delimiter separates the pieces before it from those after it, whatever is before. -/
theorem pieces_append (hab : a ≠ b) (xs ys : List α) :
    pieces a b (xs ++ ([a, b] ++ ys)) = pieces a b xs ++ pieces a b ys := by
  fun_induction pieces a b xs with
  | case1 => simp [pieces]
  | case2 x => simp [pieces, hab]
  | case3 x y xs hcut ih =>
    simp only [List.cons_append, pieces, if_pos hcut]
    exact congrArg ([] :: ·) ih
  | case4 x y xs hcut ih =>
    simp only [List.cons_append, pieces, if_neg hcut] at ih ⊢
    rw [ih]
    cases hp : pieces a b (y :: xs) with
    | nil => exact absurd hp (pieces_ne_nil _)
    | cons p ps => rfl

theorem pieces_unbroken {xs : List α} (h : ¬ [a, b] <:+: xs) : pieces a b xs = [xs] := by
  fun_induction pieces a b xs with
  | case1 => rfl
  | case2 x => rfl
  | case3 x y xs hcut ih => exact absurd ⟨[], xs, by simp [hcut]⟩ h
  | case4 x y xs hcut ih =>
    rw [ih fun hm => h (List.infix_cons hm)]
    rfl

theorem pieces_of_notMem {xs : List α} (h : a ∉ xs) : pieces a b xs = [xs] :=
  pieces_unbroken fun hm => h (hm.subset (by simp))

theorem not_infix_of_pieces (hab : a ≠ b) {xs : List α} (h : pieces a b xs = [xs]) :
    ¬ [a, b] <:+: xs := by
  rintro ⟨us, vs, rfl⟩
  have hlen := congrArg List.length h
  have hus := List.length_pos_of_ne_nil (pieces_ne_nil (a := a) (b := b) us)
  have hvs := List.length_pos_of_ne_nil (pieces_ne_nil (a := a) (b := b) vs)
  rw [List.append_assoc, pieces_append hab, List.length_append, List.length_singleton] at hlen
  omega

theorem pieces_modifyHead {x y : α} {xs : List α} (h : ¬ (x = a ∧ y = b)) :
    pieces a b (x :: y :: xs) = (pieces a b (y :: xs)).modifyHead (x :: ·) := by
  rw [pieces, if_neg h]

/-- Two lists that do not meet in a delimiter: the last piece of the one and the first piece
of the other become one. -/
theorem pieces_merge {xs ys l m : List α} {ls ms : List (List α)} (hxs : pieces a b xs = ls ++ [l])
    (hys : pieces a b ys = m :: ms) (hmeet : xs.getLast? = some a → ys.head? ≠ some b) :
    pieces a b (xs ++ ys) = ls ++ (l ++ m) :: ms := by
  fun_induction pieces a b xs generalizing ls l with
  | case1 =>
    obtain ⟨rfl, rfl⟩ : ls = [] ∧ l = [] := by simpa [List.singleton_eq_append_iff] using hxs
    exact hys
  | case2 x =>
    obtain ⟨rfl, rfl⟩ : ls = [] ∧ l = [x] := by simpa [List.singleton_eq_append_iff] using hxs
    cases ys with
    | nil =>
      obtain ⟨rfl, rfl⟩ := List.cons.inj hys
      rfl
    | cons y ys =>
      have hcut : ¬ (x = a ∧ y = b) := by
        rintro ⟨rfl, rfl⟩
        exact hmeet rfl rfl
      rw [List.singleton_append, pieces_modifyHead hcut, hys]
      rfl
  | case3 x y xs hcut ih =>
    cases ls with
    | nil => exact absurd (List.cons.inj hxs).2 (pieces_ne_nil xs)
    | cons l' ls =>
      obtain ⟨rfl, hrest⟩ := List.cons.inj hxs
      have hlast : xs.getLast? = some a → ys.head? ≠ some b := by
        intro hxs'
        apply hmeet
        cases xs with
        | nil => simp at hxs'
        | cons z zs => rwa [List.getLast?_cons_cons, List.getLast?_cons_cons]
      rw [List.cons_append, List.cons_append, pieces, if_pos hcut, ih hrest hlast]
      rfl
  | case4 x y xs hcut ih =>
    rw [List.getLast?_cons_cons] at hmeet
    cases hp : pieces a b (y :: xs) with
    | nil => exact absurd hp (pieces_ne_nil _)
    | cons p ps =>
      rw [hp, List.modifyHead_cons] at hxs
      have hmerged : pieces a b (x :: y :: (xs ++ ys)) =
          (pieces a b (y :: xs ++ ys)).modifyHead (x :: ·) := pieces_modifyHead hcut
      rw [List.cons_append, List.cons_append, hmerged]
      cases ls with
      | nil =>
        obtain ⟨rfl, rfl⟩ := List.cons.inj hxs
        have hhead : pieces a b (y :: xs ++ ys) = [] ++ (p ++ m) :: ms := ih hp hmeet
        rw [hhead]
        rfl
      | cons l' ls =>
        obtain ⟨rfl, rfl⟩ := List.cons.inj hxs
        have hhead : pieces a b (y :: xs ++ ys) = (p :: ls) ++ (l ++ m) :: ms := ih hp hmeet
        rw [hhead]
        rfl

/-- A double delimiter behind a list none of whose later pieces is empty is the first one. -/
theorem search_double (hab : a ≠ b) {xs : List α} (h : [] ∉ (pieces a b xs).tail) (ys : List α) :
    search [a, b, a, b] (xs ++ ([a, b, a, b] ++ ys)) = some xs.length := by
  fun_induction pieces a b xs with
  | case1 => simp [search]
  | case2 x => simp [search, hab.symm]
  | case3 x y xs hcut ih =>
    obtain ⟨rfl, rfl⟩ := hcut
    have hpieces : [] ∉ pieces x y xs := h
    have hnext : ¬ [x, y] <+: xs ++ ([x, y, x, y] ++ ys) := by
      cases xs with
      | nil => simp [pieces] at hpieces
      | cons z zs =>
        cases zs with
        | nil => simp [hab.symm]
        | cons w ws =>
          rintro ⟨t, ht⟩
          obtain ⟨rfl, hrest⟩ := List.cons.inj ht
          obtain ⟨rfl, -⟩ := List.cons.inj hrest
          simp [pieces] at hpieces
    have hrest := ih fun hm => hpieces (List.mem_of_mem_tail hm)
    have hfirst : ¬ [x, y, x, y] <+: x :: y :: (xs ++ ([x, y, x, y] ++ ys)) := by
      intro hp
      rw [List.cons_prefix_cons, List.cons_prefix_cons] at hp
      exact hnext hp.2.2
    have hsecond : ¬ [x, y, x, y] <+: y :: (xs ++ ([x, y, x, y] ++ ys)) := by
      intro hp
      exact hab (List.cons_prefix_cons.mp hp).1
    rw [List.cons_append, List.cons_append, search_cons hfirst, search_cons hsecond, hrest]
    rfl
  | case4 x y xs hcut ih =>
    have htail : [] ∉ (pieces a b (y :: xs)).tail := by
      cases hp : pieces a b (y :: xs) with
      | nil => exact absurd hp (pieces_ne_nil _)
      | cons p ps => simpa [hp] using h
    have hfirst : ¬ [a, b, a, b] <+: x :: y :: (xs ++ ([a, b, a, b] ++ ys)) := by
      intro hp
      rw [List.cons_prefix_cons, List.cons_prefix_cons] at hp
      exact hcut ⟨hp.1.symm, hp.2.1.symm⟩
    have hrest := ih htail
    rw [List.cons_append] at hrest
    rw [List.cons_append, List.cons_append, search_cons hfirst, hrest]
    rfl

theorem pieces_split {xs : List α} {ls ms : List (List α)} (h : pieces a b xs = ls ++ ms)
    (hls : ls ≠ []) (hms : ms ≠ []) :
    ∃ us vs, xs = us ++ ([a, b] ++ vs) ∧ pieces a b us = ls ∧ pieces a b vs = ms := by
  have hone : ∀ (z : List α) ls, ls ≠ [] → [z] ≠ ls ++ ms := by
    intro z ls hls hz
    have hlen := congrArg List.length hz
    have hl := List.length_pos_of_ne_nil hls
    have hm := List.length_pos_of_ne_nil hms
    simp only [List.length_singleton, List.length_append] at hlen
    omega
  fun_induction pieces a b xs generalizing ls with
  | case1 => exact absurd h (hone _ ls hls)
  | case2 x => exact absurd h (hone _ ls hls)
  | case3 x y xs hcut ih =>
    obtain ⟨l, ls, rfl⟩ := List.exists_cons_of_ne_nil hls
    obtain ⟨rfl, hrest⟩ := List.cons.inj h
    by_cases hnil : ls = []
    · subst hnil
      exact ⟨[], xs, by simp [hcut], rfl, hrest⟩
    · obtain ⟨us, vs, rfl, hus, hvs⟩ := ih hrest hnil
      exact ⟨x :: y :: us, vs, rfl, by simp [pieces, hcut, hus], hvs⟩
  | case4 x y xs hcut ih =>
    obtain ⟨l, ls, rfl⟩ := List.exists_cons_of_ne_nil hls
    cases hp : pieces a b (y :: xs) with
    | nil => exact absurd hp (pieces_ne_nil _)
    | cons p ps =>
      rw [hp, List.modifyHead_cons, List.cons_append] at h
      obtain ⟨rfl, rfl⟩ := List.cons.inj h
      have hne : p :: ls ≠ [] := by simp
      obtain ⟨us, vs, heq, hus, hvs⟩ := ih hp hne
      refine ⟨x :: us, vs, by rw [heq]; rfl, ?_, hvs⟩
      cases us with
      | nil =>
        obtain ⟨rfl, rfl⟩ := List.cons.inj hus
        rfl
      | cons z us =>
        obtain ⟨rfl, -⟩ := List.cons.inj heq
        rw [pieces_modifyHead hcut, hus]
        rfl

theorem intercalate_pieces (xs : List α) : [a, b].intercalate (pieces a b xs) = xs := by
  fun_induction pieces a b xs with
  | case1 => rfl
  | case2 x => simp
  | case3 x y xs hcut ih =>
    cases hp : pieces a b xs with
    | nil => exact absurd hp (pieces_ne_nil _)
    | cons p ps =>
      rw [hp] at ih
      simp [hcut, ih]
  | case4 x y xs hcut ih =>
    cases hp : pieces a b (y :: xs) with
    | nil => exact absurd hp (pieces_ne_nil _)
    | cons p ps =>
      rw [hp] at ih
      rw [List.modifyHead_cons, List.intercalate_cons_cons_left, ih]

theorem pieces_injective : Function.Injective (pieces a b) :=
  Function.LeftInverse.injective intercalate_pieces

/-- The first double delimiter is where the pieces show their first empty one. -/
theorem search_blank (hab : a ≠ b) {xs : List α} {ls ms : List (List α)}
    (h : pieces a b xs = ls ++ [] :: ms) (hls : ls ≠ []) (hms : ms ≠ []) (hfull : [] ∉ ls) :
    ∃ us vs, xs = us ++ ([a, b, a, b] ++ vs) ∧ search [a, b, a, b] xs = some us.length ∧
      pieces a b us = ls ∧ pieces a b vs = ms := by
  obtain ⟨us, vs, rfl, hus, hvs⟩ := pieces_split h hls (by simp)
  have hblank : ([[]] : List (List α)) ≠ [] := by simp
  obtain ⟨ws, zs, rfl, hws, hzs⟩ := pieces_split hvs hblank hms
  obtain rfl : ws = [] := pieces_injective (a := a) (b := b) hws
  have htail : [] ∉ (pieces a b us).tail := by
    rw [hus]
    exact fun hm => hfull (List.mem_of_mem_tail hm)
  have hsearch := search_double hab htail zs
  exact ⟨us, zs, by simp, by simpa using hsearch, hus, hzs⟩

theorem idxOf?_cut {xs ys : List α} (h : a ∉ xs) : (xs ++ a :: ys).idxOf? a = some xs.length := by
  induction xs with
  | nil => simp [List.idxOf?_cons]
  | cons x xs ih =>
    have hx : x ≠ a := fun he => h (by simp [he])
    simp [List.idxOf?_cons, hx, ih fun hh => h (by simp [hh])]

theorem idxOf?_eq_some_cut {xs : List α} {i : ℕ} (h : xs.idxOf? a = some i) :
    xs = xs.take i ++ a :: xs.drop (i + 1) ∧ a ∉ xs.take i ∧ (xs.take i).length = i := by
  obtain ⟨hi, hget, hbefore⟩ := List.idxOf?_eq_some_iff.mp h
  refine ⟨?_, ?_, by rw [List.length_take]; omega⟩
  · conv_lhs => rw [← List.take_append_drop i xs, List.drop_eq_getElem_cons hi, hget]
  · intro hm
    obtain ⟨j, hj, he⟩ := List.getElem_of_mem hm
    rw [List.length_take] at hj
    exact hbefore j (by omega) (by rw [← he, List.getElem_take])

end TzzeroHttp.ListSearch
