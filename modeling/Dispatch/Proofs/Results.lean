import Mathlib.Data.List.Forall2
import Mathlib.Tactic.Common

/-!
# Results and failures

A computation answers a result or a failure.  One computation after another fails where the
first fails; a list is mapped to the results of its elements, or fails as the first of them
that has none.
-/

namespace Dispatch

variable {ε α β : Type}

theorem exists_of_bind_eq_ok {first : Except ε α} {next : α → Except ε β} {b : β}
    (h : (first >>= next) = .ok b) : ∃ a, first = .ok a ∧ next a = .ok b := by
  cases first with
  | error failure => cases h
  | ok a => exact ⟨a, rfl, h⟩

/-- Two computations fail when the first does, or the second after it. -/
theorem error_or_exists_of_bind_eq_error {first : Except ε α}
    {next : α → Except ε β} {failure : ε} (h : (first >>= next) = .error failure) :
    first = .error failure ∨ ∃ a, first = .ok a ∧ next a = .error failure := by
  cases first with
  | error cause =>
      cases h
      exact Or.inl rfl
  | ok a => exact Or.inr ⟨a, rfl, h⟩

theorem map_eq_ok_iff {f : α → β} {result : Except ε α} {b : β} :
    f <$> result = .ok b ↔ ∃ a, result = .ok a ∧ f a = b := by
  cases result <;> simp [Functor.map, Except.map]

theorem map_eq_error_iff {f : α → β} {result : Except ε α} {failure : ε} :
    f <$> result = .error failure ↔ result = .error failure := by
  cases result <;> simp [Functor.map, Except.map]

/-- What a list is mapped to comes from its elements. -/
theorem exists_of_mem_mapM {f : α → Except ε β} {l : List α} {results : List β}
    (h : l.mapM f = .ok results) {b : β} (hb : b ∈ results) : ∃ a ∈ l, f a = .ok b := by
  induction l generalizing results with
  | nil =>
      cases h
      simp at hb
  | cons a rest ih =>
      rw [List.mapM_cons] at h
      obtain ⟨first, hfirst, h⟩ := exists_of_bind_eq_ok h
      obtain ⟨more, hmore, h⟩ := exists_of_bind_eq_ok h
      cases h
      rcases List.mem_cons.mp hb with rfl | hb
      · exact ⟨a, by simp, hfirst⟩
      · obtain ⟨a', ha', hf⟩ := ih hmore hb
        exact ⟨a', List.mem_cons_of_mem _ ha', hf⟩

theorem mapM_congr {f g : α → Except ε β} {l : List α} (h : ∀ a ∈ l, f a = g a) :
    l.mapM f = l.mapM g := by
  induction l with
  | nil => rfl
  | cons a rest ih =>
      obtain ⟨ha, hrest⟩ := List.forall_mem_cons.mp h
      rw [List.mapM_cons, List.mapM_cons, ha, ih hrest]

/-- A list whose elements have known results is mapped to those. -/
theorem mapM_eq_ok_map {f : α → Except ε β} {g : α → β} {l : List α}
    (h : ∀ a ∈ l, f a = .ok (g a)) : l.mapM f = .ok (l.map g) := by
  induction l with
  | nil => rfl
  | cons a rest ih =>
      obtain ⟨ha, hrest⟩ := List.forall_mem_cons.mp h
      rw [List.mapM_cons, ha, ih hrest]
      rfl

/-- A list is mapped exactly when each of its elements is. -/
theorem mapM_eq_ok_iff {f : α → Except ε β} {l : List α} :
    (∃ results, l.mapM f = .ok results) ↔ ∀ a ∈ l, ∃ b, f a = .ok b := by
  induction l with
  | nil => exact ⟨fun _ => by simp, fun _ => ⟨[], rfl⟩⟩
  | cons a rest ih =>
      rw [List.forall_mem_cons, ← ih]
      constructor
      · rintro ⟨results, h⟩
        rw [List.mapM_cons] at h
        obtain ⟨first, hfirst, h⟩ := exists_of_bind_eq_ok h
        obtain ⟨more, hmore, _⟩ := exists_of_bind_eq_ok h
        exact ⟨⟨first, hfirst⟩, more, hmore⟩
      · rintro ⟨⟨first, hfirst⟩, more, hmore⟩
        exact ⟨first :: more, by rw [List.mapM_cons, hfirst, hmore]; rfl⟩

/-- A list is mapped to the results of its elements, one for each of them. -/
theorem mapM_eq_ok_iff_forall₂ {f : α → Except ε β} {l : List α} {results : List β} :
    l.mapM f = .ok results ↔ List.Forall₂ (fun a b => f a = .ok b) l results := by
  induction l generalizing results with
  | nil =>
      rw [List.forall₂_nil_left_iff]
      constructor
      · rintro ⟨⟩
        rfl
      · rintro rfl
        rfl
  | cons a rest ih =>
      rw [List.mapM_cons, List.forall₂_cons_left_iff]
      constructor
      · intro h
        obtain ⟨first, hfirst, h⟩ := exists_of_bind_eq_ok h
        obtain ⟨more, hmore, h⟩ := exists_of_bind_eq_ok h
        cases h
        exact ⟨first, more, hfirst, ih.mp hmore, rfl⟩
      · rintro ⟨first, more, hfirst, hmore, rfl⟩
        rw [hfirst, ih.mpr hmore]
        rfl

/-- A list that is not mapped fails as the first of its elements that has no result. -/
theorem mapM_eq_error_iff {f : α → Except ε β} {l : List α} {failure : ε} :
    l.mapM f = .error failure ↔ ∃ front a back, l = front ++ a :: back ∧
      (∀ earlier ∈ front, ∃ b, f earlier = .ok b) ∧ f a = .error failure := by
  induction l with
  | nil => simp [pure, Except.pure]
  | cons first rest ih =>
      rw [List.mapM_cons]
      constructor
      · intro h
        rcases error_or_exists_of_bind_eq_error h with hfirst | ⟨result, hfirst, h⟩
        · exact ⟨[], first, rest, rfl, by simp, hfirst⟩
        rcases error_or_exists_of_bind_eq_error h with hrest | ⟨results, _, h⟩
        · obtain ⟨front, a, back, rfl, hfront, ha⟩ := ih.mp hrest
          exact ⟨first :: front, a, back, rfl,
            List.forall_mem_cons.mpr ⟨⟨result, hfirst⟩, hfront⟩, ha⟩
        · cases h
      · rintro ⟨front, a, back, hsplit, hfront, ha⟩
        cases front with
        | nil =>
            obtain ⟨rfl, rfl⟩ := List.cons.inj hsplit
            rw [ha]
            rfl
        | cons earlier front =>
            obtain ⟨rfl, rfl⟩ := List.cons.inj hsplit
            obtain ⟨⟨result, hfirst⟩, hfront⟩ := List.forall_mem_cons.mp hfront
            rw [hfirst, ih.mpr ⟨front, a, back, rfl, hfront, ha⟩]
            rfl

/-- A list that is not mapped fails as one of its elements does. -/
theorem exists_of_mapM_eq_error {f : α → Except ε β} {l : List α} {failure : ε}
    (h : l.mapM f = .error failure) : ∃ a ∈ l, f a = .error failure := by
  obtain ⟨front, a, back, rfl, _, ha⟩ := mapM_eq_error_iff.mp h
  exact ⟨a, by simp, ha⟩

/-- Going through a list, whatever the results, is mapping it without looking at them. -/
theorem forM_map_const {f : α → Except ε β} (l : List α) :
    (forM l fun a => (fun _ => ()) <$> f a) = (fun _ => ()) <$> l.mapM f := by
  induction l with
  | nil => rfl
  | cons a rest ih =>
      rw [List.forM_cons, List.mapM_cons, ih]
      cases f a with
      | error failure => rfl
      | ok b => cases rest.mapM f <;> rfl

theorem forM_eq_map_mapM {f : α → Except ε Unit} (l : List α) :
    forM l f = (fun _ => ()) <$> l.mapM f := by
  have hmap : (forM l fun a => (fun _ => ()) <$> f a) = (fun _ => ()) <$> l.mapM f :=
    forM_map_const l
  rwa [funext fun a => id_map' (f a)] at hmap

end Dispatch
