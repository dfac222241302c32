import Mathlib.Data.List.AList
import Mathlib.Data.List.MinMax

/-! A function on the values of an association list, key by key.  It commutes with the operations
that look at keys only, and with the choice of a least entry by a measure that it keeps. -/

namespace AList

variable {α : Type} {β γ : α → Type}

def mapValues (f : ∀ a, β a → γ a) (s : AList β) : AList γ :=
  ⟨s.entries.map fun e => ⟨e.1, f e.1 e.2⟩, s.nodupKeys.map₂ f _⟩

variable {f : ∀ a, β a → γ a} {s : AList β} {a : α}

@[simp] theorem mapValues_entries :
    (s.mapValues f).entries = s.entries.map fun e => ⟨e.1, f e.1 e.2⟩ := rfl

@[simp] theorem mapValues_empty : (∅ : AList β).mapValues f = ∅ := rfl

variable [DecidableEq α]

@[simp] theorem lookup_mapValues : (s.mapValues f).lookup a = (s.lookup a).map (f a) :=
  List.dlookup_map₂ a

@[simp] theorem erase_mapValues : (s.mapValues f).erase a = (s.erase a).mapValues f := by
  apply AList.ext
  show List.kerase a (s.entries.map _) = (List.kerase a s.entries).map _
  simp only [List.kerase, List.eraseP_map]
  rfl

theorem insert_mapValues {b : β a} :
    (s.mapValues f).insert a (f a b) = (s.insert a b).mapValues f := by
  apply AList.ext
  have herase : List.kerase a (s.mapValues f).entries = ((s.erase a).mapValues f).entries :=
    congrArg AList.entries erase_mapValues
  rw [entries_insert, herase, mapValues_entries, mapValues_entries, entries_insert]
  rfl

end AList

/-- The least element of a mapped list is that of the list, by the measure through the map. -/
theorem List.argmin_map_eq {α β γ : Type} [Preorder γ] [DecidableLT γ] (f : β → γ) (g : α → β)
    (l : List α) : (l.map g).argmin f = (l.argmin (f ∘ g)).map g := by
  unfold List.argmin
  rw [List.foldl_map]
  show List.foldl _ (Option.map g none) l = _
  refine List.foldl_hom (Option.map g) ?_
  intro x y
  cases x with
  | none => rfl
  | some x =>
    simp only [List.argAux, Option.map_some, Function.comp]
    split <;> rfl
