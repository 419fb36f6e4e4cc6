import Dataflow.Proofs.Rescan.Crossing
import Dataflow.Proofs.Rescan.Rounds
import Dataflow.Proofs.Rescan.Sources

/-!
# Schemas that are asked for while filters are moved up

A search behind a `ForEach` may have unions take identities, so that the order of searches matters
at first. But identities are taken only when the schema of an input is asked for the first time, and
that happens while the whole plan is gone through: in the region that a move changed, everything
that a search could ask for is known. So these requests are made in one order, that of the plan
before any filter was moved, and lead to one flow (`Course`).
-/

namespace Dataflow

open Dataflow.Graph Dataflow.Flow

namespace Plan

variable {p q r : Plan} {W last : Flow} {K K' : Table} {n : Nat} {rank : NodeId → Nat}
  {x y z F G : NodeId} {L ids : List NodeId} {m : Match} {config : Config}

/-- A `ForEach` whose only output is a filter. -/
def Asker (p : Plan) (F : NodeId) : Prop :=
  p.HasType F .forEach ∧ ∃ y, p.graph.successors F = [y] ∧ p.HasType y .filter

theorem Alike.asker (h : Alike p q) : q.Asker F ↔ p.Asker F := by
  have hof : ∀ {p q : Plan}, Alike p q → p.Asker F → q.Asker F := by
    rintro p q h ⟨hF, y, houts, hy⟩
    exact ⟨h.symm.hasType hF, y, (h.successors F).trans houts, h.symm.hasType hy⟩
  exact ⟨hof h.symm, hof h⟩

/-- Those of the list that have inputs whose schema is not known. -/
def waiting (L : List NodeId) (W : Flow) (K : Table) : List NodeId :=
  L.filter fun F => !W.settled K F

theorem mem_waiting : F ∈ waiting L W K ↔ F ∈ L ∧ W.settled K F = false := by
  simp [waiting]

theorem waiting_sublist {W' : Flow} (hle : K.Le K') (hlike : Like W W') :
    (waiting L W' K').Sublist (waiting L W K) := by
  refine List.monotone_filter_right L fun F hF => ?_
  simp only [Bool.not_eq_true', ← Bool.not_eq_true] at hF ⊢
  exact fun hset => hF (settled_mono hset hle hlike)

/-- Moving filters up has come to the plan `p`. The inputs of the listed operators are asked for in
turn, which leads to the last flow, and those that were not asked for yet are still there in this
order. -/
structure Course (L : List NodeId) (last : Flow) (n : Nat) (rank : NodeId → Nat) (p : Plan)
    (W : Flow) (K : Table) : Prop where
  tracks : Tracks n rank p W K
  leads : L.foldl (askInputs n) W = last
  askers : ∀ F, p.Asker F → W.settled K F = true ∨ F ∈ L
  waits : ∀ F ∈ waiting L W K, p.Asker F
  order : ∃ order, p.graph.topologicalOrder = .ok order ∧ (waiting L W K).Sublist order

/-- Whoever has to be asked for among the listed operators is there in order, or nobody has. -/
def Due (L : List NodeId) (p : Plan) (W : Flow) (K : Table) (ids : List NodeId) : Prop :=
  (waiting L W K).Sublist ids ∨ ∀ F ∈ ids, p.Asker F → W.settled K F = true

theorem foldl_settled (h : Tracks n rank p W K) (hL : ∀ F ∈ L, W.settled K F = true) :
    L.foldl (askInputs n) W = W := by
  induction L with
  | nil => rfl
  | cons F L ih =>
    obtain ⟨hF, hL⟩ := List.forall_mem_cons.mp hL
    rw [List.foldl_cons, h.holds.askInputs_settled h.within hF]
    exact ih hL

namespace Course

variable (h : Course L last n rank p W K)

include h

theorem leadsOn : LeadsOn n W last := ⟨L, h.leads⟩

/-- An operator without search is passed over. -/
theorem skip (hF : ¬p.Asker F) (hdue : Due L p W K (F :: ids)) : Due L p W K ids := by
  rcases hdue with hdue | hdue
  · rcases List.sublist_cons_iff.mp hdue with hdue | ⟨rest, heq, -⟩
    · exact .inl hdue
    · exact absurd (h.waits F (by simp [heq])) hF
  · exact .inr (List.forall_mem_cons.mp hdue).2

/-- A search asks for the next of those that have to be asked for, or for nothing new. -/
theorem asked {W' : Flow} (hF : p.Asker F) (hnew : F ∉ ids) (hdue : Due L p W K (F :: ids))
    (hext : Extends p q) (hle : K.Le K') (hW' : W' = askInputs n W F) (hq : Tracks n rank q W' K')
    (hset : W'.settled K' F = true) : Course L last n rank q W' K' ∧ Due L q W' K' ids := by
  have hlike : Like W W' := hW' ▸ Like.askInputs
  have hsub := waiting_sublist (L := L) hle hlike
  have hnot : F ∉ waiting L W' K' := fun hmem => by
    rw [(mem_waiting.mp hmem).2] at hset
    cases hset
  obtain ⟨order, horder, hwaiting⟩ := h.order
  refine ⟨⟨hq, ?_, fun F' hF' => ?_, fun F' hF' => ?_, order, ?_, hsub.trans hwaiting⟩, ?_⟩
  · cases hknown : W.settled K F with
    | true =>
      rw [h.tracks.holds.askInputs_settled h.tracks.within hknown] at hW'
      rw [hW', h.leads]
    | false =>
      -- whoever comes before it has been asked for
      have hmem : F ∈ waiting L W K := by
        refine mem_waiting.mpr ⟨?_, hknown⟩
        have := h.askers F hF
        simpa [hknown] using this
      have hhead : ∃ rest, waiting L W K = F :: rest := by
        rcases hdue with hdue | hdue
        · rcases List.sublist_cons_iff.mp hdue with hdue | ⟨rest, heq, -⟩
          · exact absurd (hdue.subset hmem) hnew
          · exact ⟨rest, heq⟩
        · rw [hdue F (by simp) hF] at hknown
          cases hknown
      obtain ⟨rest, hrest⟩ := hhead
      obtain ⟨before, behind, hL, hbefore, -, -⟩ := List.filter_eq_cons_iff.mp hrest
      have hbefore : ∀ x ∈ before, W.settled K x = true := fun x hx => by
        simpa using hbefore x hx
      have hlast := h.leads
      rw [hL, List.foldl_append, foldl_settled h.tracks hbefore, List.foldl_cons, ← hW'] at hlast
      rw [hL, List.foldl_append, foldl_settled hq fun x hx => settled_mono (hbefore x hx) hle hlike,
        List.foldl_cons, hq.holds.askInputs_settled hq.within hset]
      exact hlast
  · exact (h.askers F' (hext.alike.asker.mp hF')).imp_left fun hs => settled_mono hs hle hlike
  · exact hext.alike.asker.mpr (h.waits F' (hsub.subset hF'))
  · rw [← horder]
    have hcontains : ∀ x, q.graph.contains x = p.graph.contains x := fun x => by
      rw [contains_eq_core?, contains_eq_core?, hext.alike.core?]
    exact Graph.topologicalOrder_eq hext.alike.ids hcontains hext.alike.successors
      hext.alike.predecessors
  · rcases hdue with hdue | hdue
    · rcases List.sublist_cons_iff.mp (hsub.trans hdue) with hdue | ⟨rest, heq, -⟩
      · exact .inl hdue
      · exact absurd (by simp [heq]) hnot
    · refine .inr fun F' hF' hasker => settled_mono ?_ hle hlike
      exact (List.forall_mem_cons.mp hdue).2 F' hF' (hext.alike.asker.mp hasker)

/-- A search behind a `ForEach` that leads to a filter first. -/
theorem search {rest : List NodeId} {found : Option (NodeId × NodeId)} (hF : p.HasType F .forEach)
    (houts : p.graph.successors F = y :: rest) (hy : p.HasType y .filter) (hnew : F ∉ ids)
    (hdue : Due L p W K (F :: ids)) (hrun : Rule.eligibleFilter F p = .ok found q) : Extends p q ∧
      ∃ W' K', Course L last n rank q W' K' ∧ Due L q W' K' ids ∧
        (found.isSome = true → W'.settled K' F = true) := by
  cases rest with
  | nil =>
    obtain ⟨hext, K', hle, hq, hset, -⟩ := h.tracks.eligibleFilter hF houts hrun
    obtain ⟨hcourse, hdue⟩ := h.asked ⟨hF, y, houts, hy⟩ hnew hdue hext hle rfl hq hset
    exact ⟨hext, _, K', hcourse, hdue, fun _ => hset⟩
  | cons y' rest =>
    obtain ⟨input, -, hinput, -⟩ := h.tracks.exists_input hF
    unfold Rule.eligibleFilter at hrun
    rw [Pass.bind_of_ok Pass.get_apply, show p.predecessors F = [input] from hinput,
      show p.successors F = y :: y' :: rest from houts] at hrun
    obtain ⟨rfl, rfl⟩ := EStateM.Result.ok.inj
      (show (.ok none p : EStateM.Result Error Plan _) = .ok found q from hrun)
    refine ⟨.refl h.tracks.fit.sound.coherent, W, K, h, h.skip (fun hasker => ?_) hdue, by simp⟩
    obtain ⟨-, z, hz, -⟩ := hasker
    simp [houts] at hz

end Course

/-- A filter is moved after searches that found nothing. -/
structure Taken (L : List NodeId) (last : Flow) (n : Nat) (rank : NodeId → Nat) (p r : Plan)
    (F input G : NodeId) (m : Match) (region : Region) (q : Plan) : Prop where
  ext : Extends p r
  course : ∃ W K, Course L last n rank r W K ∧ W.settled K F = true
  forEach : r.HasType F .forEach
  isMatch : Rule.filterAboveForEach.Matches r m
  anchor : m.get 0 = .ok F
  found : Rule.eligibleFilter F r = .ok (some (input, G)) r
  moved : Rule.filterAboveForEach.transform m r = .ok region q

/-- How going through the matches at these operators ends. -/
theorem Course.scan {pattern : Pattern} (hpattern : Rule.filterAboveForEach.pattern = .ok pattern)
    (hpair : pattern.IsPair .forEach .filter) :
    ∀ {ids : List NodeId} {found : List Match} {p q : Plan}
    {W : Flow} {K : Table} {region? : Option (List NodeId)}, Course L last n rank p W K →
    Due L p W K ids → ids.Nodup → pattern.matchesAt p ids = .ok found →
    Optimizer.transformFirst config Rule.filterAboveForEach found p = .ok region? q →
    match region? with
    | none => ∃ W K, Course L last n rank q W K ∧ Extends p q
    | some scope => ∃ r F input G m region, Taken L last n rank p r F input G m region q ∧
        scope = region.withNeighbors q := by
  intro ids
  induction ids with
  | nil =>
    intro found p q W K region? h _ _ hfound hrun
    obtain rfl := Except.ok.inj hfound
    obtain ⟨rfl, rfl⟩ := EStateM.Result.ok.inj hrun
    exact ⟨W, K, h, .refl h.tracks.fit.sound.coherent⟩
  | cons F ids ih =>
    intro found p q W K region? h hdue hnodup hfound hrun
    obtain ⟨hnew, hnodup⟩ := List.nodup_cons.mp hnodup
    unfold Pattern.matchesAt at hfound
    obtain ⟨m?, hm?, hfound⟩ := Pass.except_bind_eq_ok.mp hfound
    cases m? with
    | none =>
      refine ih h (h.skip (fun hasker => ?_) hdue) hnodup hfound hrun
      obtain ⟨hF, y, houts, hy⟩ := hasker
      have := hpair.exists_match houts (h.tracks.fit.sound.wellFormed.ne_of_edge (by simp [houts]))
        hF hy
      rw [hm?] at this
      cases this
    | some m =>
      obtain ⟨rest, hrest, hfound⟩ := Pass.except_bind_eq_ok.mp hfound
      obtain rfl := Except.ok.inj hfound
      obtain ⟨y, others, hnodes, houts, hF, hy⟩ := hpair.matchAt hm?
      have hanchor : m.get 0 = .ok F := by simp [Match.get, hnodes]
      have hthere := (Pattern.contains_of_matchAt hm?).2
      rcases Optimizer.match_cases config Rule.filterAboveForEach m p with
        hgone | ⟨-, p₁, hc⟩ | ⟨region, q', hchanges⟩ | ⟨e, q', hfails⟩
      · rw [hthere] at hgone
        cases hgone
      · -- the search goes on
        rw [Optimizer.transformFirst_refused hthere hc] at hrun
        obtain ⟨found', hrun', -⟩ := (Rule.filterAboveForEach_check_eq_ok hanchor).mp hc
        obtain ⟨hext, W', K', h₁, hdue₁, -⟩ := h.search hF houts hy hnew hdue hrun'
        have hrest₁ : pattern.matchesAt p₁ ids = .ok rest := by
          rw [Pattern.matchesAt_congr hext.alike.sameChecks]
          exact hrest
        have hend := ih h₁ hdue₁ hnodup hrest₁ hrun
        cases region? with
        | none =>
          obtain ⟨W'', K'', hcourse, hext'⟩ := hend
          exact ⟨W'', K'', hcourse, hext.trans hext'⟩
        | some scope =>
          obtain ⟨r, F', input, G, m', region, htaken, hscope⟩ := hend
          exact ⟨r, F', input, G, m', region, { htaken with ext := hext.trans htaken.ext }, hscope⟩
      · -- the filter is moved
        rw [Optimizer.transformFirst_changes hchanges] at hrun
        obtain ⟨rfl, rfl⟩ := EStateM.Result.ok.inj hrun
        obtain ⟨r, hc, ht⟩ := hchanges.applied
        obtain ⟨found', hrun', hsome⟩ := (Rule.filterAboveForEach_check_eq_ok hanchor).mp hc
        obtain ⟨hext, W', K', h₁, -, hset⟩ := h.search hF houts hy hnew hdue hrun'
        have hmatch : Rule.filterAboveForEach.Matches p m := ⟨pattern, F, hpattern, hm?⟩
        obtain ⟨hok, -⟩ := Rule.filterAboveForEach_check h.tracks.ready hanchor
          (.refl h.tracks.fit.sound.coherent)
        obtain ⟨-, hagain⟩ := hok true r hc
        obtain ⟨⟨input, G⟩, hfound⟩ := hagain rfl
        exact ⟨r, F, input, G, m, region, ⟨hext, ⟨W', K', h₁, hset hsome⟩,
          hext.alike.symm.hasType hF,
          hmatch.alike hext.alike, hanchor, hfound, ht⟩, rfl⟩
      · rw [Optimizer.transformFirst_fails hfails] at hrun
        cases hrun

/-! ## After a move -/

section Moved

variable {C : Net.Crossing} {path : List NodeId} {t : Option Schema} {input : NodeId}
  (h : Course L last n rank p W K) (hm : MovedAs C p q F G path) (hF : p.HasType F .forEach)
  (hinput : p.graph.predecessors F = [input]) (hq : Tracks n rank q W K') (hKF : K' F = some t)

include h hm hF hinput hq hKF

/-- What the rows of the `ForEach` come from is known. -/
theorem known_source : ∃ i t, q.Under input i ∧ q.Under F F ∧ K' i = some t := by
  obtain ⟨a, hapath, ha, haG, -, hpre⟩ := hm.edges h.tracks.fit.sound h.tracks.fit.valid
  have hFq : q.HasType F .forEach := hm.hasType.mpr hF
  have hne := hm.ne_forEach hF
  have hG : q.HasType G .filter := hm.hasType.mpr (hm.filter_of_mem (.inl rfl) hne)
  obtain ⟨G', i, hG', hi, hins⟩ := hq.exists_input hFq
  obtain rfl : G = G' := by
    rw [hpre, if_neg hne.symm, if_pos rfl] at hG'
    exact List.singleton_inj.mp hG'
  have hpreG : q.graph.predecessors G = [input] := by rw [hpre, if_pos rfl, hinput]
  obtain ⟨t, ht⟩ := Option.isSome_iff_exists.mp
    (settled_iff.mp (hq.holds.settled hKF) i (by simp [hins]))
  refine ⟨i, t, ?_, .self (lasting_of_hasType hFq (by simp)), ht⟩
  cases hi with
  | self hr => exact absurd hG (Under.not_filter hr)
  | filter _ hpre' hrest =>
    obtain rfl := List.singleton_inj.mp (hpreG.symm.trans hpre')
    exact hrest

theorem settled_input (hin : q.HasType input .forEach) : W.settled K' input = true := by
  obtain ⟨i, t, hi, -, hK⟩ := known_source h hm hF hinput hq hKF
  obtain rfl := hi.eq_of_lasting (lasting_of_hasType hin (by simp))
  exact hq.holds.settled hK

/-- Whoever asks after a move asked before it, or need not ask any more. -/
theorem askers_moved (hle : K.Le K') (hasker : q.Asker x) : W.settled K' x = true ∨ x ∈ L := by
  have hp := h.tracks.fit.sound
  obtain ⟨a, hapath, -, -, hsuc, -⟩ := hm.edges hp h.tracks.fit.valid
  obtain ⟨ht, y, houts, hy⟩ := hasker
  have htp := hm.hasType.mp ht
  rw [hsuc] at houts
  by_cases hxG : x = G
  · exact absurd (hm.eq_of_forEach (.inl hxG) htp) (hxG ▸ hm.ne_forEach hF)
  rw [if_neg hxG] at houts
  by_cases hxa : x = a
  · have hxF := hm.eq_of_forEach (.inr (hxa ▸ hapath)) htp
    exact .inl (hxF ▸ hq.holds.settled hKF)
  rw [if_neg hxa] at houts
  obtain ⟨y₀, hy₀, rfl⟩ := List.map_eq_singleton_iff.mp houts
  by_cases hy₀F : y₀ = F
  · have hmem := (hp.wellFormed.edge x F).mp (by rw [hy₀, hy₀F]; simp)
    obtain rfl : x = input := by simpa [hinput] using hmem
    exact .inl (settled_input h hm hF hinput hq hKF ht)
  · rw [renamed_of_ne hy₀F] at hy
    exact (h.askers x ⟨htp, y₀, hy₀, hm.hasType.mp hy⟩).imp_left fun hs => settled_mono hs hle .refl

omit hF hinput in
/-- Who waits is not on the path. -/
theorem away_of_waiting (hle : K.Le K') (hx : x ∈ waiting L W K') : x ≠ G ∧ x ∉ path := by
  have hset := (mem_waiting.mp hx).2
  have ht := (h.waits x ((waiting_sublist hle .refl).subset hx)).1
  have hne : x ≠ F := by
    rintro rfl
    rw [hq.holds.settled hKF] at hset
    cases hset
  exact ⟨fun hxG => hne (hm.eq_of_forEach (.inl hxG) ht), fun hmem =>
    hne (hm.eq_of_forEach (.inr hmem) ht)⟩

omit hinput in
theorem waits_moved (hle : K.Le K') (hx : x ∈ waiting L W K') : q.Asker x := by
  obtain ⟨a, hapath, -, -, hsuc, -⟩ := hm.edges h.tracks.fit.sound h.tracks.fit.valid
  obtain ⟨hxG, hxpath⟩ := away_of_waiting h hm hq hKF hle hx
  obtain ⟨ht, y, houts, hy⟩ := h.waits x ((waiting_sublist hle .refl).subset hx)
  have hyF : y ≠ F := fun heq => hF.not (by simp) (heq ▸ hy)
  refine ⟨hm.hasType.mpr ht, y, ?_, hm.hasType.mpr hy⟩
  rw [hsuc, if_neg hxG, if_neg (by rintro rfl; exact hxpath hapath), houts, List.map_singleton,
    renamed_of_ne hyF]

/-- A move keeps the course. -/
theorem Course.moved (hle : K.Le K') : Course L last n rank q W K' where
  tracks := hq
  leads := h.leads
  askers _ hasker := askers_moved h hm hF hinput hq hKF hle hasker
  waits _ hx := waits_moved h hm hF hq hKF hle hx
  order := by
    obtain ⟨order, horder, hwaiting⟩ := h.order
    refine ⟨order.map (Net.climb G path), ?_, ?_⟩
    · rw [hm.topologicalOrder_eq h.tracks.fit.sound h.tracks.fit.valid (by simp [hinput]), horder]
      rfl
    · have hfix : (waiting L W K').map (Net.climb G path) = waiting L W K' := by
        conv_rhs => rw [← List.map_id (waiting L W K')]
        refine List.map_congr_left fun x hx => ?_
        obtain ⟨hxG, hxpath⟩ := away_of_waiting h hm hq hKF hle hx
        exact Net.climb_of_notMem hxG hxpath
      rw [← hfix]
      exact ((waiting_sublist hle .refl).trans hwaiting).map _

/-- In the region that a move changed nothing has to be asked for. -/
theorem settled_region (hx : x ∈ (Region.ofList (input :: G :: F ::
    ((p.graph.predecessors G).take 1 ++ p.graph.successors G))).withNeighbors q)
    (hasker : q.Asker x) : W.settled K' x = true := by
  have hp := h.tracks.fit.sound
  have hv := h.tracks.fit.valid
  obtain ⟨a, hapath, ha, haG, hsuc, hpre⟩ := hm.edges hp hv
  obtain ⟨i, ti, hi, hFU, hKi⟩ := known_source h hm hF hinput hq hKF
  obtain ⟨_, _, -, hGp, -⟩ := hm.step
  have hGF := hm.ne_forEach hF
  have hG : q.HasType G .filter := hm.hasType.mpr (IsFilter.hasType hGp)
  have hpreG : p.graph.predecessors G = [a] :=
    IsFilter.predecessors_eq hGp hp hv (by simp [ha])
  have hGU : q.Under G i := .filter hG (by rw [hpre, if_pos rfl, hinput]) hi
  have haU : q.Under a F := hm.under hp hv hFU a hapath
  obtain ⟨ht, y, houts, hy⟩ := hasker
  have hlast := lasting_of_hasType ht (by simp)
  -- what is under something known is known, or what leads to it is
  have hknown : ∀ {id s t}, q.Under id s → K' s = some t →
      (x ∈ q.graph.predecessors id ∨ x = id) → W.settled K' x = true := by
    intro id s t hid hs hxid
    rcases hxid with hxid | rfl
    · have hedge := (hq.fit.sound.wellFormed.edge x id).mpr hxid
      obtain rfl : id = y := by simpa [houts] using hedge
      cases hid with
      | self hr => exact absurd hy (Under.not_filter hr)
      | filter _ hpre' hrest =>
        obtain rfl : x = _ := by simpa [hpre'] using hxid
        obtain rfl := hrest.eq_of_lasting hlast
        exact hq.holds.settled hs
    · obtain rfl := hid.eq_of_lasting hlast
      exact hq.holds.settled hs
  obtain ⟨id, hid, -, hxid⟩ := Region.mem_withNeighbors.mp hx
  simp only [List.mem_cons, List.mem_append, hpreG, List.take_succ_cons, List.take_zero,
    List.not_mem_nil,
    or_false] at hid
  rcases hid with rfl | rfl | rfl | rfl | hid
  · exact hknown hi hKi hxid
  · exact hknown hGU hKi hxid
  · exact hknown hFU hKF hxid
  · exact hknown haU hKF hxid
  · -- what the filter led to is behind the operator that led to the filter
    have hedge : id ∈ q.graph.successors a := by rwa [hsuc, if_neg haG, if_pos rfl]
    have hmem := (hq.fit.sound.wellFormed.edge a id).mp hedge
    by_cases hfilter : q.HasType id .filter
    · obtain ⟨name, f, hf⟩ := hfilter.isFilter
      exact hknown (.filter hfilter (hf.predecessors_eq hq.fit.sound hq.fit.valid hedge) haU) hKF
        hxid
    · rcases hxid with hxid | rfl
      · have hedge' := (hq.fit.sound.wellFormed.edge x id).mpr hxid
        obtain rfl : id = y := by simpa [houts] using hedge'
        exact absurd hy hfilter
      · obtain ⟨input', s, hin, hs, hins⟩ := hq.exists_input ht
        obtain rfl : a = input' := by simpa [hin] using hmem
        obtain rfl := haU.unique hs
        refine settled_iff.mpr fun z hz => ?_
        obtain rfl : z = F := by simpa [hins] using hz
        rw [hKF]
        rfl

end Moved

/-! ## Where it starts -/

/-- The searches of a plan, in order. -/
structure Agenda (L : List NodeId) (p : Plan) : Prop where
  mem : ∀ F, F ∈ L ↔ p.Asker F
  order : ∃ order, p.graph.topologicalOrder = .ok order ∧ L.Sublist order

theorem exists_agenda (hp : p.graph.WellFormed) (hacyclic : p.graph.Acyclic) : ∃ L, Agenda L p := by
  classical
  obtain ⟨order, horder⟩ := Graph.exists_topologicalOrder hp hacyclic
  obtain ⟨-, hmem, -⟩ := Graph.topologicalOrder_spec hp horder
  refine ⟨order.filter p.Asker, fun F => ?_, order, horder, List.filter_sublist⟩
  rw [List.mem_filter, hmem, decide_eq_true_iff, and_iff_right_iff_imp]
  exact fun hF => hF.1.contains

/-- The searches of plans that differ in the keys of their filters are the same. -/
theorem Agenda.counterpart {φ : Equiv.Perm NodeId} (h : Agenda L p) (hφ : Counterparts φ p q) :
    Agenda L q := by
  have hof : ∀ {p q : Plan} {φ : Equiv.Perm NodeId}, Counterparts φ p q → ∀ F, p.Asker F →
      φ F = F ∧ q.Asker F := by
    rintro p q φ hφ F ⟨hF, y, houts, hy⟩
    have hfix := hφ.fixes hF (by simp)
    refine ⟨hfix, hfix ▸ hφ.hasType_iff.mpr hF, φ y, ?_, hφ.hasType_iff.mpr hy⟩
    rw [← hfix, hφ.successors_eq, houts, List.map_singleton]
  refine ⟨fun F => (h.mem F).trans ⟨fun hF => (hof hφ F hF).2, fun hF => (hof hφ.symm F hF).2⟩, ?_⟩
  obtain ⟨order, horder, hsub⟩ := h.order
  refine ⟨order.map φ, by rw [hφ.topologicalOrder_eq, horder]; rfl, ?_⟩
  have hfix : L.map φ = L := by
    conv_rhs => rw [← List.map_id L]
    exact List.map_congr_left fun F hF => (hof hφ F ((h.mem F).mp hF)).1
  rw [← hfix]
  exact hsub.map _

theorem Agenda.course (h : Agenda L p) (hp : Tracks n rank p W fun _ => none) :
    Course L (L.foldl (askInputs n) W) n rank p W fun _ => none where
  tracks := hp
  leads := rfl
  askers F hF := .inr ((h.mem F).mpr hF)
  waits F hF := (h.mem F).mp (mem_waiting.mp hF).1
  order := h.order.imp fun _ ⟨horder, hsub⟩ => ⟨horder, List.filter_sublist.trans hsub⟩

/-! ## Where it ends -/

theorem leadsTo_of_climb {fit : Formula → Prop} {path : List NodeId}
    (h : p.net.Climb fit G F path) :
    p.LeadsTo G F path := by
  induction h with
  | last houts _ => exact .last houts
  | step houts _ hy _ _ ih => exact .step houts (IsFilter.hasType hy) ih

/-- Where nothing can be moved up, all was asked for, and the net is at its end. -/
theorem Course.ends (h : Course L last n rank p W K)
    (hrefuses : Rule.filterAboveForEach.Refuses p) :
    W = last ∧ AtEnd (Net.Moves (crossing n last)) p.net := by
  have hp := h.tracks.fit.sound
  -- no search asks for anything new, and none finds anything
  have hsearch : ∀ F, p.Asker F → askInputs n W F = W ∧
      p.net.Finds ((crossing n W).fit F) F p.size none := by
    rintro F ⟨hF, y, houts, hy⟩
    obtain ⟨-, K', -, hq, -, hfinds⟩ := h.tracks.eligibleFilter hF houts
      (eligibleFilter_of_refuses hrefuses hp.wellFormed hF houts hy)
    have hstill := hq.flow.unique h.tracks.flow
    rw [hstill] at hfinds
    exact ⟨hstill, hfinds⟩
  have hlast : W = last := by
    rw [← h.leads]
    have hL : ∀ F ∈ L, askInputs n W F = W := fun F hF => by
      cases hset : W.settled K F with
      | true => exact h.tracks.holds.askInputs_settled h.tracks.within hset
      | false => exact (hsearch F (h.waits F (mem_waiting.mpr ⟨hF, hset⟩))).1
    clear h hsearch
    induction L with
    | nil => rfl
    | cons F L ih =>
      obtain ⟨hF, hL⟩ := List.forall_mem_cons.mp hL
      rw [List.foldl_cons, hF]
      exact ih hL
  subst hlast
  refine ⟨rfl, ?_⟩
  rintro M ⟨F, opF, G, path, name, f, hF, ht, hclimb, hG, hf, -⟩
  have hleads := leadsTo_of_climb hclimb
  have hasker : p.Asker F := by
    refine ⟨hasType_iff_core?.mpr ⟨opF, hF, ht⟩, ?_⟩
    obtain ⟨y, houts, -⟩ := hleads.output_of_mem hleads.mem_self
    exact ⟨y, houts, hleads.first_filter (IsFilter.hasType hG) houts⟩
  exact (hsearch F hasker).2.miss rfl G path name f hclimb (hleads.length_le hp h.tracks.fit.valid)
    hG hf

end Plan

namespace Optimizer

open Plan

variable {config : Config} {s t : Progress} {p q : Plan} {W last : Flow} {n k : Nat}
  {rank : NodeId → Nat} {L : List NodeId} {u : Unit}

/-- So many filters of `p` were moved up to get `q`, and the listed operators are asked for in turn.
In the scope of the next attempt nothing new is asked for. -/
structure MovedTo (L : List NodeId) (last : Flow) (n : Nat) (rank : NodeId → Nat) (p : Plan)
    (k : Nat) (scope : Option (List NodeId)) (q : Plan) : Prop where
  course : ∃ W K, Course L last n rank q W K ∧
    ∀ ids, scope = some ids → ∀ F ∈ ids, q.Asker F → W.settled K F = true
  takes : Takes (Net.Moves (crossing n last)) k p.net q.net
  sources : q.graph.sources = p.graph.sources

/-- How an attempt goes on. -/
theorem MovedTo.scan {scope : Option (List NodeId)} {region? : Option (List NodeId)} {r : Plan}
    (h : MovedTo L last n rank p k scope q) :
    matchAndTransform config Rule.filterAboveForEach scope q = .ok region? r → match region? with
    | none => ∃ W K, Course L last n rank r W K ∧ Extends q r
    | some scope => ∃ r' F input G m region, Taken L last n rank q r' F input G m region r ∧
        scope = region.withNeighbors r := by
  intro hrun
  obtain ⟨W, K, hcourse, hscope⟩ := h.course
  obtain ⟨found, hfound, hrun⟩ := matchAndTransform_eq_ok.mp hrun
  obtain ⟨pattern, hchain, hpair⟩ := Pattern.exists_pair .forEach
  have hpattern : Rule.filterAboveForEach.pattern = .ok pattern := hchain
  unfold Rule.findMatches at hfound
  rw [hpattern] at hfound
  obtain ⟨_, h₀, hfound⟩ := Pass.except_bind_eq_ok.mp hfound
  obtain rfl := Except.ok.inj h₀
  obtain ⟨-, -, hfound⟩ := Pass.except_bind_eq_ok.mp hfound
  obtain ⟨order, horder, hfound⟩ := Pass.except_bind_eq_ok.mp hfound
  have horder := Graph.orError_eq_ok.mp horder
  obtain ⟨hnodup, -, -⟩ :=
    Graph.topologicalOrder_spec hcourse.tracks.fit.sound.wellFormed horder
  have hfound : pattern.matchesAt q (searched scope order) = .ok found := hfound
  refine hcourse.scan hpattern hpair ?_ ?_ hfound hrun
  · cases scope with
    | none =>
      obtain ⟨order', horder', hsub⟩ := hcourse.order
      obtain rfl := Except.ok.inj (horder.symm.trans horder')
      exact .inl hsub
    | some ids =>
      refine .inr fun F hF => hscope ids rfl F ?_
      simpa using (List.mem_filter.mp hF).2
  · unfold searched
    split
    · exact hnodup.filter _
    · exact hnodup

theorem rounds_filterAboveForEach (p : Plan) :
    Rounds config Rule.filterAboveForEach (MovedTo L last n rank p) where
  refused h hrun := by
    obtain ⟨W, K, hcourse, hext⟩ := h.scan hrun
    exact ⟨⟨W, K, hcourse, fun _ h => by cases h⟩, hext.alike.net_eq.symm ▸ h.takes,
      hext.alike.sources.trans h.sources⟩
  applied h hrun := by
    obtain ⟨r, F, input, G, m, region, htaken, rfl⟩ := h.scan hrun
    obtain ⟨W, K, hcourse, hset⟩ := htaken.course
    obtain ⟨K', path, t, hle, hq, hKF, hmoved, hinput, hregion⟩ := hcourse.tracks.transform
      htaken.forEach htaken.isMatch htaken.anchor htaken.found htaken.moved
    have hr := hcourse.tracks.fit
    have hnext := hcourse.moved hmoved htaken.forEach hinput hq hKF hle
    have hsettled := fun {x} => settled_region (x := x) hcourse hmoved htaken.forEach hinput hq hKF
    have htakes := h.takes
    -- how the filter was moved is how it would be in the end
    obtain ⟨opF, hopF⟩ := Option.isSome_iff_exists.mp (lasting_of_hasType htaken.forEach (by simp))
    have hforEach : opF.type = .forEach := (hasType_of_lasting hopF).1.unique htaken.forEach
    obtain ⟨hfit, hformula⟩ := hcourse.leadsOn.crossing_eq hcourse.tracks.holds
      hcourse.tracks.within
      hset ((hcourse.tracks.flow.op F).trans hopF) (by simp [hforEach])
    obtain ⟨name, f, hclimb, hG, hf, hnet⟩ := hmoved.step
    obtain ⟨op, hop, hop'⟩ := hasType_iff_core?.mp htaken.forEach
    rw [← hfit] at hclimb hf
    rw [← hformula] at hnet
    rw [← htaken.ext.alike.net_eq] at htakes
    have htakes := htakes.trans (.one ⟨F, op, G, path, name, f, hop, hop', hclimb, hG, hf, hnet⟩)
    have hsources := (hmoved.sources hr.sound hr.valid (by simp [hinput])).trans
      (htaken.ext.alike.sources.trans h.sources)
    refine ⟨⟨⟨W, K', hnext, fun _ h => by cases h⟩, htakes, hsources⟩,
      ⟨⟨W, K', hnext, fun ids hids x hx hasker => ?_⟩, htakes, hsources⟩⟩
    obtain rfl := Option.some.inj hids
    exact hsettled (hregion ▸ hx) hasker

/-- Whatever the order, moving filters up goes on until nothing can be moved, and all searches have
asked for what they need. -/
theorem movedTo_of_repeatSet {name : String} {remaining iteration : Nat} {seen : List Digest}
    (hs : Tracks n rank s.plan W fun _ => none) (hL : Agenda L s.plan)
    (henabled : config.isDisabled Rule.filterAboveForEach.name = false)
    (h : repeatSet config ⟨name, [Rule.filterAboveForEach]⟩ remaining iteration seen s = .ok u t)
    (hquiet : t.report.Quiet) :
    ∃ k, MovedTo L (L.foldl (askInputs n) W) n rank s.plan k none t.plan ∧
      t.plan.CanMerge ∧ t.plan.HasFlow (L.foldl (askInputs n) W) ∧
      AtEnd (Net.Moves (crossing n (L.foldl (askInputs n) W))) t.plan.net ∧
      t.report.applications =
        (Report.count Rule.filterAboveForEach.name)^[k] s.report.applications := by
  have hstart : MovedTo L (L.foldl (askInputs n) W) n rank s.plan 0 none s.plan :=
    ⟨⟨W, _, hL.course hs, fun _ h => by cases h⟩, .none, rfl⟩
  obtain ⟨k, hk⟩ := (rounds_filterAboveForEach s.plan).of_repeatSet henabled ⟨hstart, rfl⟩ h hquiet
  obtain ⟨W', K, hcourse, -⟩ := hk.holds.course
  obtain ⟨rfl, hend⟩ := hcourse.ends (refuses_of_repeatSet (sameness_extends fitness_canMerge)
    Rule.filterAboveForEach_pure hs.fit h henabled hquiet)
  exact ⟨k, hk.holds, hcourse.tracks.fit, hcourse.tracks.flow, hend, hk.counted⟩

end Optimizer

end Dataflow
