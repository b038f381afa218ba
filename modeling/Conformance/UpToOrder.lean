import Mathlib.Data.List.Perm.Basic

/-!
# Lists that agree up to order

`UpToOrder R as bs` says that the two lists can be paired off: some order of the second
agrees with the first, element by element, as `R` has it. With equality for `R` this is
`List.Perm`, and with the order left alone it is `List.Forall₂ R`.

> `UpToOrder.flatMap`: when the elements that are paired stand for lists that agree up to
> order, so do the lists as a whole.
-/

namespace Conformance

universe u v

/-- The second list agrees with the first when it is put in a suitable order. -/
def UpToOrder {α : Type u} {β : Type v} (R : α → β → Prop) (as : List α) (bs : List β) : Prop :=
  ∃ cs, List.Forall₂ R as cs ∧ cs.Perm bs

/-- Relations need only be compared on what is in the first list. -/
theorem forall₂_imp_of_mem {α : Type u} {β : Type v} {R S : α → β → Prop} {as : List α}
    {bs : List β} (h : List.Forall₂ R as bs) (himp : ∀ a ∈ as, ∀ b, R a b → S a b) :
    List.Forall₂ S as bs := by
  have hmem := (List.forall₂_and_left as bs).mpr ⟨himp, h⟩
  apply hmem.imp
  intro a b hab
  exact hab.1 b hab.2

namespace UpToOrder

section

variable {α : Type u} {β : Type v} {R : α → β → Prop} {as as' : List α} {bs bs' : List β}

/-- Lists that are related one by one are so up to order. -/
theorem of_forall₂ (h : List.Forall₂ R as bs) : UpToOrder R as bs := ⟨bs, h, .refl bs⟩

/-- The second list can be put into any order. -/
theorem trans_perm (h : UpToOrder R as bs) (hperm : bs.Perm bs') : UpToOrder R as bs' := by
  obtain ⟨cs, hcs, hcb⟩ := h
  exact ⟨cs, hcs, hcb.trans hperm⟩

/-- Read from the other side, the lists agree in the same way. -/
theorem symm (h : UpToOrder R as bs) : UpToOrder (flip R) bs as := by
  obtain ⟨cs, hcs, hperm⟩ := h
  have hflip : List.Forall₂ (flip R) cs as := hcs.flip
  exact List.perm_comp_forall₂ hperm.symm hflip

/-- Both lists are of one length. -/
theorem length_eq (h : UpToOrder R as bs) : as.length = bs.length := by
  obtain ⟨cs, hcs, hperm⟩ := h
  exact hcs.length_eq.trans hperm.length_eq

/-- Both lists are empty together. -/
theorem eq_nil_iff (h : UpToOrder R as bs) : as = [] ↔ bs = [] := by
  rw [← List.length_eq_zero_iff, h.length_eq, List.length_eq_zero_iff]

/-- Nothing of the first list is without a counterpart in the second. -/
theorem exists_of_mem (h : UpToOrder R as bs) {a : α} (ha : a ∈ as) : ∃ b ∈ bs, R a b := by
  obtain ⟨cs, hcs, hperm⟩ := h
  obtain ⟨i, hi, rfl⟩ := List.getElem_of_mem ha
  have hi' : i < cs.length := hcs.length_eq ▸ hi
  exact ⟨cs[i], hperm.subset (List.getElem_mem hi'), hcs.get hi hi'⟩

theorem imp_of_mem {S : α → β → Prop} (h : UpToOrder R as bs)
    (himp : ∀ a ∈ as, ∀ b, R a b → S a b) : UpToOrder S as bs := by
  obtain ⟨cs, hcs, hperm⟩ := h
  exact ⟨cs, forall₂_imp_of_mem hcs himp, hperm⟩

/-- Lists can be put together. -/
theorem append (h : UpToOrder R as bs) (h' : UpToOrder R as' bs') :
    UpToOrder R (as ++ as') (bs ++ bs') := by
  obtain ⟨cs, hcs, hperm⟩ := h
  obtain ⟨cs', hcs', hperm'⟩ := h'
  exact ⟨cs ++ cs', List.rel_append hcs hcs', hperm.append hperm'⟩

end

section

variable {α α' : Type u} {β β' : Type v} {R : α → β → Prop} {R' : α' → β' → Prop}
  {as : List α} {bs : List β}

/-- The same change on both sides carries over when it keeps pairs related. -/
theorem map {f : α → α'} {g : β → β'} (h : UpToOrder R as bs)
    (hfg : ∀ a b, R a b → R' (f a) (g b)) : UpToOrder R' (as.map f) (bs.map g) := by
  obtain ⟨cs, hcs, hperm⟩ := h
  refine ⟨cs.map g, ?_, hperm.map g⟩
  rw [List.forall₂_map_left_iff, List.forall₂_map_right_iff]
  exact hcs.imp hfg

/-- When elements that are paired stand for lists that agree up to order, so do the lists
as a whole. -/
theorem flatMap {f : α → List α'} {g : β → List β'}
    (h : UpToOrder (fun a b => UpToOrder R' (f a) (g b)) as bs) :
    UpToOrder R' (as.flatMap f) (bs.flatMap g) := by
  obtain ⟨cs, hcs, hperm⟩ := h
  refine trans_perm ?_ (hperm.flatMap_right g)
  clear hperm
  induction hcs with
  | nil => exact of_forall₂ .nil
  | cons hab _ ih =>
    rw [List.flatMap_cons, List.flatMap_cons]
    exact hab.append ih

end

end UpToOrder

end Conformance
