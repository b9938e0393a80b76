import TzzeroHttp.ByteText

/-! The header table that requests and responses share: an unordered map from lower-case
field names to values, with the five accessors that both classes define alike. The order of
`entries` carries no meaning; serialisation is taken over every permutation of it. -/
namespace TzzeroHttp.HeaderMap
open ByteText

abbrev Headers := AList fun _ : Bytes => Bytes

/-- A name and its value. -/
abbrev Field := (_ : Bytes) × Bytes

/-- A field as both serialisers write it, without the end of the line. -/
def fieldText (f : Field) : Bytes := f.1 ++ (ascii ": " ++ f.2)

theorem fieldText_eq (f : Field) : fieldText f = f.1 ++ colon :: (32 :: f.2) := rfl

namespace Headers

/-- `add_header`: a repeated field is joined to the earlier value with a comma. -/
def add (h : Headers) (field value : Bytes) : Headers :=
  match h.lookup (lower field) with
  | some old => h.insert (lower field) (old ++ (ascii ", " ++ value))
  | none => h.insert (lower field) value

def set (h : Headers) (field value : Bytes) : Headers := h.insert (lower field) value

def get (h : Headers) (field : Bytes) : Bytes := (h.lookup (lower field)).getD []

def has (h : Headers) (field : Bytes) : Bool := (h.lookup (lower field)).isSome

def remove (h : Headers) (field : Bytes) : Headers := h.erase (lower field)

theorem lookup_set_ne (h : Headers) {field f : Bytes} (value : Bytes) (hf : f ≠ lower field) :
    (h.set field value).lookup f = h.lookup f :=
  AList.lookup_insert_ne hf

theorem lookup_add_ne (h : Headers) {field f : Bytes} (value : Bytes) (hf : f ≠ lower field) :
    (h.add field value).lookup f = h.lookup f := by
  unfold add
  split <;> exact AList.lookup_insert_ne hf

theorem lookup_add_self (h : Headers) (field value : Bytes) :
    (h.add field value).lookup (lower field) =
      some (match h.lookup (lower field) with
        | some old => old ++ (ascii ", " ++ value)
        | none => value) := by
  unfold add
  split <;> exact AList.lookup_insert _

/-- Room a field takes in the table: its value and one separator. It grows by the same
amount whether a value is the first of its field or joined to earlier ones. -/
def fieldSize (h : Headers) (f : Bytes) : ℕ :=
  match h.lookup f with
  | some v => v.length + 2
  | none => 0

@[simp] theorem fieldSize_empty (f : Bytes) : fieldSize ∅ f = 0 := rfl

theorem fieldSize_add (h : Headers) (field value f : Bytes) :
    fieldSize (h.add field value) f =
      fieldSize h f + if f = lower field then value.length + 2 else 0 := by
  unfold fieldSize
  split_ifs with hf
  · subst hf
    have hsep : (ascii ", ").length = 2 := by decide
    rw [lookup_add_self]
    cases h.lookup (lower field) with
    | none => simp
    | some old =>
      simp only [List.length_append, hsep]
      omega
  · rw [lookup_add_ne h value hf]
    rfl

end Headers

end TzzeroHttp.HeaderMap
