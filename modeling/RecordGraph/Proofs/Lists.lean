import Mathlib.Data.List.Forall2

/-!
# Lists

Facts that hold of any lists: two lists side by side, maps that may fail, places of elements in
one list, and look-ups in a list of pairs.
-/
namespace RecordGraph

/-! ## Two lists side by side -/

section
variable {α β γ : Type} {R : α → β → Prop} {S : β → γ → Prop} {T : α → γ → Prop} {l : List α}
  {bs : List β} {cs : List γ}

theorem exists_of_forall₂ {b : β} (h : List.Forall₂ R l bs) (hb : b ∈ bs) : ∃ a ∈ l, R a b := by
  induction h with
  | nil => cases hb
  | cons hab _ ih =>
    rcases List.mem_cons.1 hb with rfl | hb
    · exact ⟨_, by simp, hab⟩
    · obtain ⟨a, ha, hR⟩ := ih hb
      exact ⟨a, by simp [ha], hR⟩

theorem exists_forall₂ (h : ∀ a ∈ l, ∃ b, R a b) : ∃ bs, List.Forall₂ R l bs := by
  induction l with
  | nil => exact ⟨[], .nil⟩
  | cons a l ih =>
    obtain ⟨b, hb⟩ := h a (by simp)
    obtain ⟨bs, hbs⟩ := ih fun a' ha => h a' (by simp [ha])
    exact ⟨b :: bs, .cons hb hbs⟩

theorem forall₂_trans (h : List.Forall₂ R l bs) (h' : List.Forall₂ S bs cs)
    (hT : ∀ a b c, R a b → S b c → T a c) : List.Forall₂ T l cs := by
  induction h generalizing cs with
  | nil =>
    cases h'
    exact .nil
  | cons hab _ ih =>
    cases h' with
    | cons hbc hrest => exact .cons (hT _ _ _ hab hbc) (ih hrest)

end

/-! ## Maps that may fail -/

section
variable {ε α β : Type} {l : List α} {bs : List β}

theorem mapM_eq_some {f : α → Option β} :
    l.mapM f = some bs ↔ List.Forall₂ (fun a b => f a = some b) l bs := by
  induction l generalizing bs with
  | nil => simp [eq_comm]
  | cons a l ih =>
    rw [List.mapM_cons, List.forall₂_cons_left_iff]
    simp only [bind, Option.bind_eq_some_iff, pure, Option.some.injEq, ih]
    constructor
    · rintro ⟨b, hb, bs, hbs, rfl⟩
      exact ⟨b, bs, hb, hbs, rfl⟩
    · rintro ⟨b, bs, hb, hbs, rfl⟩
      exact ⟨b, hb, bs, hbs, rfl⟩

theorem mapM_eq_none {f : α → Option β} : l.mapM f = none ↔ ∃ a ∈ l, f a = none := by
  induction l with
  | nil => simp
  | cons a l ih =>
    rw [List.mapM_cons, List.exists_mem_cons_iff, ← ih]
    cases f a <;> cases l.mapM f <;> simp

/-- A step that may fail with an error, and what follows it. -/
theorem bind_eq_ok {m : Except ε α} {f : α → Except ε β} {b : β} :
    m >>= f = .ok b ↔ ∃ a, m = .ok a ∧ f a = .ok b := by
  cases m with
  | error e =>
    constructor
    · intro h
      cases h
    · rintro ⟨a, ha, -⟩
      cases ha
  | ok a =>
    constructor
    · intro h
      exact ⟨a, rfl, h⟩
    · rintro ⟨a', ha, h⟩
      cases ha
      exact h

theorem exists_of_mapM_ok {f : α → Except ε β} {a : α} (h : l.mapM f = .ok bs) (ha : a ∈ l) :
    ∃ b ∈ bs, f a = .ok b := by
  induction l generalizing bs with
  | nil => cases ha
  | cons x l ih =>
    rw [List.mapM_cons] at h
    obtain ⟨b, hb, h⟩ := bind_eq_ok.1 h
    obtain ⟨rest, hrest, h⟩ := bind_eq_ok.1 h
    cases h
    rcases List.mem_cons.1 ha with rfl | ha
    · exact ⟨b, by simp, hb⟩
    · obtain ⟨b', hb', hf⟩ := ih hrest ha
      exact ⟨b', by simp [hb'], hf⟩

end

/-! ## Places in one list -/

section
variable {α : Type*} {p : α → Prop} {l before after r r' : List α} {a a' last : α}

/-- Of two places in one list, the one where `p` fails is not before the other one, if `p` holds
up to there. -/
theorem eq_or_append_of_split (h : l ++ a :: r = before ++ a' :: r') (hl : ∀ x ∈ l, p x)
    (ha' : ¬ p a') : (before = l ∧ a' = a) ∨ ∃ t, before = l ++ a :: t := by
  rcases List.append_eq_append_iff.1 h with ⟨t, rfl, ht⟩ | ⟨t, rfl, ht⟩
  · cases t with
    | nil =>
      obtain ⟨rfl, -⟩ := List.cons.inj ht
      exact .inl ⟨List.append_nil l, rfl⟩
    | cons x t =>
      obtain ⟨rfl, -⟩ := List.cons.inj ht
      exact .inr ⟨t, rfl⟩
  · cases t with
    | nil =>
      obtain ⟨rfl, -⟩ := List.cons.inj ht
      exact .inl ⟨(List.append_nil before).symm, rfl⟩
    | cons x t =>
      obtain ⟨rfl, -⟩ := List.cons.inj ht
      exact absurd (hl _ (by simp)) ha'

/-- Of the elements of a list only the last one may satisfy `p`, so one that does is the last. -/
theorem last_of_split (h : l ++ [last] = before ++ a :: after) (hl : ∀ x ∈ l, ¬ p x) (ha : p a) :
    after = [] ∧ l = before ∧ last = a := by
  rcases eq_or_append_of_split h hl (not_not.2 ha) with ⟨rfl, rfl⟩ | ⟨t, rfl⟩
  · exact ⟨(List.cons.inj (List.append_cancel_left h)).2.symm, rfl, rfl⟩
  · simp at h

end

/-! ## Look-ups -/

section
variable {α β : Type*} [BEq α] [LawfulBEq α] {l : List (α × β)} {a b : α} {v : β}

theorem mem_of_lookup (h : l.lookup a = some v) : (a, v) ∈ l := by
  obtain ⟨before, after, hsplit, -⟩ := List.lookup_eq_some_iff.1 h
  simp [hsplit]

theorem lookup_of_mem_nodup (hnodup : (l.map Prod.fst).Nodup) (hmem : (a, v) ∈ l) :
    l.lookup a = some v := by
  induction l with
  | nil => cases hmem
  | cons x l ih =>
    rw [List.map_cons, List.nodup_cons] at hnodup
    rw [List.lookup_cons]
    rcases List.mem_cons.1 hmem with rfl | hmem
    · simp
    · have hne : a ≠ x.1 := by
        intro h
        exact hnodup.1 (h ▸ List.mem_map_of_mem hmem)
      rw [beq_false_of_ne hne]
      exact ih hnodup.2 hmem

theorem lookup_map_self [DecidableEq α] {as : List α} (f : α → β) :
    (as.map fun x => (x, f x)).lookup a = if a ∈ as then some (f a) else none := by
  induction as with
  | nil => rfl
  | cons x as ih =>
    rw [List.map_cons, List.lookup_cons]
    by_cases hx : a = x
    · simp [hx]
    · rw [beq_false_of_ne hx, ih]
      simp [hx]

theorem lookup_filter_ne [DecidableEq α] (h : b ≠ a) :
    (l.filter (·.1 ≠ a)).lookup b = l.lookup b := by
  induction l with
  | nil => rfl
  | cons x l ih =>
    by_cases hx : x.1 = a
    · have hb : (b == x.1) = false := by
        rw [hx]
        exact beq_false_of_ne h
      rw [List.filter_cons_of_neg (by simpa using hx), ih, List.lookup_cons, hb]
    · rw [List.filter_cons_of_pos (by simpa using hx), List.lookup_cons, List.lookup_cons, ih]

end
end RecordGraph
