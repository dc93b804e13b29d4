import RecordGraph.Proofs.Reachable

/-!
# Paths as identities

Two paths that resolve at two moments of a run give the same id exactly if they
have the same joins and the same column, however they are written.
-/
namespace RecordGraph

variable {σ : Type}

/-- One node, two moments, two paths: ids agree as the flattened paths do. -/
theorem resolve_eq_iff_flatten_eq (b : Backend σ) {s s₁ t t₁ : Session σ}
    (hs : s.graph.Reachable) (hrun : Session.Runs b s₁ t) (n : NodeId) (p q : String) :
    (∀ c d, Action.resolveColumn b n p s = .ok c s₁ → Action.resolveColumn b n q t = .ok d t₁ →
      ∃ P Q, ColumnPath.parse p = .ok P ∧ ColumnPath.parse q = .ok Q ∧
        (c = d ↔ P.flatten = Q.flatten)) ∧
    (∀ k l, Action.resolveTable b n p s = .ok k s₁ → Action.resolveTable b n q t = .ok l t₁ →
      ∃ P Q, TableSpec.parsePath p = .ok P ∧ TableSpec.parsePath q = .ok Q ∧
        (k = l ↔ P.flatMap TableSpec.hops = Q.flatMap TableSpec.hops)) := by
  have hg := hs.wellFormed
  refine ⟨fun c d hc hd => ?_, fun k l hk hl => ?_⟩
  · obtain ⟨hevolves, P, hP, hlocate⟩ := (Action.resolveColumn_ends b n p hg).of_ok hc
    have hg₁ := hevolves.wellFormed hg
    have hgt := (hrun.evolves hg₁).wellFormed hg₁
    obtain ⟨hevolves', Q, hQ, hlocate'⟩ := (Action.resolveColumn_ends b n q hgt).of_ok hd
    have hgrow := ((hrun.evolves hg₁).trans hevolves').grows hg₁
    have hgt₁ := hevolves'.wellFormed hgt
    have hc' := hgrow.locate hg₁ hgt₁ hlocate
    refine ⟨P, Q, hP, hQ, fun hcd => ?_, fun hflat => ?_⟩
    · exact hgt₁.locate_inj (hcd ▸ hc') hlocate'
    · rw [hflat, hlocate'] at hc'
      exact (Option.some.inj hc').symm
  · obtain ⟨hevolves, P, hP, hdescend⟩ := (Action.resolveTable_ends b n p hg).of_ok hk
    have hg₁ := hevolves.wellFormed hg
    have hgt := (hrun.evolves hg₁).wellFormed hg₁
    obtain ⟨hevolves', Q, hQ, hdescend'⟩ := (Action.resolveTable_ends b n q hgt).of_ok hl
    have hgrow := ((hrun.evolves hg₁).trans hevolves').grows hg₁
    have hgt₁ := hevolves'.wellFormed hgt
    have hk' := hgrow.descend hg₁ hgt₁ hdescend
    refine ⟨P, Q, hP, hQ, fun hkl => ?_, fun hflat => ?_⟩
    · exact hgt₁.descend_inj (hkl ▸ hk') hdescend'
    · rw [hflat, hdescend'] at hk'
      exact (Option.some.inj hk').symm

/-- A shorthand and its brackets give one column and one node, with an assignment between
the two. -/
theorem resolve_shorthand_eq_bracketed :
    let b := Backend.refusing ""
    let s := Session.start "t0" "id" .null ()
    let s₁ := (Action.resolveColumn b Graph.root "t1.title").after s
    let t := ((Operation.setValue ⟨3⟩ (.integer 5)).perform b).after s₁
    Session.Runs b s₁ t ∧
      (Action.resolveColumn b Graph.root "t1.title").result? s =
        (Action.resolveColumn b Graph.root "t1[id = t1_id].title").result? t ∧
      (Action.resolveTable b Graph.root "t1").result? s₁ =
        (Action.resolveTable b Graph.root "t1[t1_id]").result?
          ((Action.resolveTable b Graph.root "t1").after s₁) := by
  intro b s s₁ t
  have hs : s.graph.Reachable := Graph.reachable_start b "t0" "id" .null ()
  have hrun : Session.Runs b s₁ t := .single ⟨_, rfl⟩
  have hs₁ : s₁.graph.Reachable :=
    ⟨_, b, "t0", "id", .null, (), s₁,
      .single ⟨.resolveColumn Graph.root "t1.title", Action.after_discard.symm⟩, rfl⟩
  have hP : ColumnPath.parse "t1.title" = .ok (.through "t1" (.column "title")) := by
    decide +kernel
  have hQ : ColumnPath.parse "t1[id = t1_id].title" =
      .ok (.joined "t1" (some "id") (.column "t1_id") (.column "title")) := by decide +kernel
  have hT : TableSpec.parsePath "t1" = .ok [⟨"t1", none⟩] := by decide +kernel
  have hU : TableSpec.parsePath "t1[t1_id]" = .ok [⟨"t1", some ⟨none, .column "t1_id"⟩⟩] := by
    decide +kernel
  refine ⟨hrun, ?_, ?_⟩
  · obtain ⟨c, hc⟩ := Option.isSome_iff_exists.1 (show ((Action.resolveColumn b Graph.root
      "t1.title").result? s).isSome = true by decide +kernel)
    obtain ⟨d, hd⟩ := Option.isSome_iff_exists.1 (show ((Action.resolveColumn b Graph.root
      "t1[id = t1_id].title").result? t).isSome = true by decide +kernel)
    obtain ⟨P, Q, hP', hQ', hflat⟩ := (resolve_eq_iff_flatten_eq b hs hrun Graph.root _ _).1 c d
      (Action.eq_ok_of_result? hc) (Action.eq_ok_of_result? hd)
    obtain rfl := Except.ok.inj (hP.symm.trans hP')
    obtain rfl := Except.ok.inj (hQ.symm.trans hQ')
    rw [hc, hd, hflat.2 rfl]
  · obtain ⟨k, hk⟩ := Option.isSome_iff_exists.1 (show ((Action.resolveTable b Graph.root
      "t1").result? s₁).isSome = true by decide +kernel)
    obtain ⟨l, hl⟩ := Option.isSome_iff_exists.1 (show ((Action.resolveTable b Graph.root
      "t1[t1_id]").result? ((Action.resolveTable b Graph.root "t1").after s₁)).isSome = true by
        decide +kernel)
    obtain ⟨P, Q, hP', hQ', hflat⟩ := (resolve_eq_iff_flatten_eq b hs₁ .refl Graph.root _ _).2 k l
      (Action.eq_ok_of_result? hk) (Action.eq_ok_of_result? hl)
    obtain rfl := Except.ok.inj (hT.symm.trans hP')
    obtain rfl := Except.ok.inj (hU.symm.trans hQ')
    rw [hk, hl, hflat.2 rfl]

end RecordGraph
