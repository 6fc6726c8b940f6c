/-
# XeusCpp.Logic.Overwrite — loops in which the last find counts.

A loop over a list that may fail keeps one variable; a round that finds something overwrites it. The
loop fails exactly when one of its rounds does, and otherwise the variable ends as the last find.
Over the orders of the list the result is the same exactly when all finds agree.
-/
import Mathlib.Data.List.Basic

namespace XeusCpp.Logic

universe u v

variable {α β γ : Type u} {ε : Type v}

/-! ## Failure -/

def Succeeds (x : Except ε α) : Prop := ∃ a, x = .ok a

theorem bind_eq_ok {x : Except ε α} {f : α → Except ε β} {b : β} :
    x >>= f = .ok b ↔ ∃ a, x = .ok a ∧ f a = .ok b := by
  cases x with
  | error e =>
      constructor
      · intro h
        cases h
      · rintro ⟨a, ha, -⟩
        cases ha
  | ok a =>
      constructor
      · intro h
        exact ⟨a, rfl, h⟩
      · rintro ⟨a', ha, h⟩
        cases ha
        exact h

theorem map_eq_ok {x : Except ε α} {f : α → β} {b : β} :
    x.map f = .ok b ↔ ∃ a, x = .ok a ∧ f a = b := by
  constructor
  · intro h
    cases x with
    | error e => cases h
    | ok a => exact ⟨a, rfl, Except.ok.inj h⟩
  · rintro ⟨a, rfl, rfl⟩
    rfl

theorem succeeds_mapM (f : α → Except ε β) (xs : List α) :
    Succeeds (xs.mapM f) ↔ ∀ x ∈ xs, Succeeds (f x) := by
  induction xs with
  | nil => simp [Succeeds, pure, Except.pure]
  | cons x xs ih =>
      have hcons : Succeeds ((x :: xs).mapM f) ↔ Succeeds (f x) ∧ Succeeds (xs.mapM f) := by
        rw [List.mapM_cons]
        constructor
        · rintro ⟨ys, h⟩
          obtain ⟨y, hy, h⟩ := bind_eq_ok.mp h
          obtain ⟨zs, hz, -⟩ := bind_eq_ok.mp h
          exact ⟨⟨y, hy⟩, ⟨zs, hz⟩⟩
        · rintro ⟨⟨y, hy⟩, ⟨zs, hz⟩⟩
          exact ⟨y :: zs, bind_eq_ok.mpr ⟨y, hy, bind_eq_ok.mpr ⟨zs, hz, rfl⟩⟩⟩
      rw [hcons, ih]
      simp

/-! ## The loop -/

/-- One round on the variable `r`. -/
def overwrite (f : α → Except ε (Option β)) (r : β) (x : α) : Except ε β := (f x).map (·.getD r)

theorem succeeds_overwrite (f : α → Except ε (Option β)) (r : β) (xs : List α) :
    Succeeds (xs.foldlM (overwrite f) r) ↔ ∀ x ∈ xs, Succeeds (f x) := by
  induction xs generalizing r with
  | nil => simp [Succeeds, pure, Except.pure]
  | cons x xs ih =>
      rw [List.foldlM_cons]
      constructor
      · rintro ⟨b, h⟩ y hy
        obtain ⟨r', hr, h⟩ := bind_eq_ok.mp h
        rcases List.mem_cons.mp hy with rfl | hy
        · obtain ⟨o, ho, -⟩ := map_eq_ok.mp hr
          exact ⟨o, ho⟩
        · exact (ih r').mp ⟨b, h⟩ y hy
      · intro h
        obtain ⟨o, ho⟩ := h x (by simp)
        obtain ⟨b, hb⟩ := (ih (o.getD r)).mpr fun y hy => h y (by simp [hy])
        exact ⟨b, bind_eq_ok.mpr ⟨_, map_eq_ok.mpr ⟨o, ho, rfl⟩, hb⟩⟩

/-- Reading everything before the loop, or one thing in each round of it. -/
theorem mapM_overwrite_eq_ok (f : α → Except ε β) (h : β → Except ε (Option γ)) (xs : List α)
    (r v : γ) : (xs.mapM f >>= fun ys => ys.foldlM (overwrite h) r) = .ok v ↔
      xs.foldlM (overwrite fun x => f x >>= h) r = .ok v := by
  induction xs generalizing r with
  | nil => exact Iff.rfl
  | cons x xs ih =>
      rw [List.foldlM_cons, List.mapM_cons]
      -- the rounds fail at different times, but fail together
      constructor
      · intro hv
        obtain ⟨zs, hz, hv⟩ := bind_eq_ok.mp hv
        obtain ⟨y, hy, hz⟩ := bind_eq_ok.mp hz
        obtain ⟨ys, hys, hz⟩ := bind_eq_ok.mp hz
        cases hz
        rw [List.foldlM_cons] at hv
        obtain ⟨r', hr, hv⟩ := bind_eq_ok.mp hv
        obtain ⟨o, ho, hr⟩ := map_eq_ok.mp hr
        refine bind_eq_ok.mpr ⟨r', map_eq_ok.mpr ⟨o, bind_eq_ok.mpr ⟨y, hy, ho⟩, hr⟩, ?_⟩
        exact (ih r').mp (bind_eq_ok.mpr ⟨ys, hys, hv⟩)
      · intro hv
        obtain ⟨r', hr, hv⟩ := bind_eq_ok.mp hv
        obtain ⟨o, ho, hr⟩ := map_eq_ok.mp hr
        obtain ⟨y, hy, ho⟩ := bind_eq_ok.mp ho
        obtain ⟨ys, hys, hv⟩ := bind_eq_ok.mp ((ih r').mpr hv)
        refine bind_eq_ok.mpr ⟨y :: ys, ?_, ?_⟩
        · exact bind_eq_ok.mpr ⟨y, hy, bind_eq_ok.mpr ⟨ys, hys, rfl⟩⟩
        · rw [List.foldlM_cons]
          exact bind_eq_ok.mpr ⟨r', map_eq_ok.mpr ⟨o, ho, hr⟩, hv⟩

/-- What the finds of a run without failure leave in the variable. -/
theorem foldlM_overwrite {f : α → Except ε (Option β)} {g : α → Option β} {xs : List α}
    (h : ∀ x ∈ xs, f x = .ok (g x)) (r : β) :
    xs.foldlM (overwrite f) r = .ok ((xs.filterMap g).getLast?.getD r) := by
  induction xs generalizing r with
  | nil => rfl
  | cons x xs ih =>
      have hx : overwrite f r x = .ok ((g x).getD r) := by
        rw [overwrite, h x (by simp)]
        rfl
      rw [List.foldlM_cons, hx]
      show xs.foldlM (overwrite f) ((g x).getD r) = _
      rw [ih fun y hy => h y (by simp [hy])]
      cases hg : g x with
      | none => rw [List.filterMap_cons_none hg, Option.getD_none]
      | some b => rw [List.filterMap_cons_some hg, List.getLast?_cons, Option.getD_some]; rfl

/-! ## The order of the list -/

/-- Every element is the last one in some order. -/
theorem exists_perm_concat {x : α} {xs : List α} (h : x ∈ xs) : ∃ ys, (ys ++ [x]).Perm xs := by
  obtain ⟨s, t, rfl⟩ := List.append_of_mem h
  refine ⟨s ++ t, ?_⟩
  rw [List.append_assoc]
  exact (@List.perm_append_comm _ t [x]).append_left s

/-- The last find is the same in every order exactly when all finds agree. -/
theorem last_perm_iff (g : α → Option β) (xs : List α) (r : β) :
    (∀ ys zs : List α, ys.Perm xs → zs.Perm xs →
      (ys.filterMap g).getLast?.getD r = (zs.filterMap g).getLast?.getD r) ↔
      ∀ x ∈ xs, ∀ y ∈ xs, ∀ a b, g x = some a → g y = some b → a = b := by
  constructor
  · intro h x hx y hy a b ha hb
    -- each find is the last one of some order
    obtain ⟨ys, hys⟩ := exists_perm_concat hx
    obtain ⟨zs, hzs⟩ := exists_perm_concat hy
    have := h _ _ hys hzs
    simpa [List.filterMap_append, ha, hb] using this
  · intro h ys zs hys hzs
    -- the last find of an order is the find of some element
    have hmem : ∀ ws : List α, ws.Perm xs → ∀ a ∈ ws.filterMap g, ∃ x ∈ xs, g x = some a := by
      intro ws hws a ha
      obtain ⟨x, hx, hxa⟩ := List.mem_filterMap.mp ha
      exact ⟨x, hws.subset hx, hxa⟩
    have hperm := (hys.trans hzs.symm).filterMap g
    cases hy : (ys.filterMap g).getLast? with
    | none =>
        rw [List.getLast?_eq_none_iff] at hy
        rw [hy] at hperm
        rw [List.nil_perm.mp hperm]
        rfl
    | some a =>
        obtain ⟨x, hx, hxa⟩ := hmem ys hys a (List.mem_of_getLast? hy)
        cases hz : (zs.filterMap g).getLast? with
        | none =>
            rw [List.getLast?_eq_none_iff] at hz
            rw [hz] at hperm
            rw [List.perm_nil.mp hperm] at hy
            cases hy
        | some b =>
            obtain ⟨y, hy', hyb⟩ := hmem zs hzs b (List.mem_of_getLast? hz)
            exact h x hx y hy' a b hxa hyb

end XeusCpp.Logic
