import Dataflow.Proofs.Rescan.Descent
import Dataflow.Proofs.Rescan.Edits
import Dataflow.Proofs.Rescan.Net
import Dataflow.Proofs.Rescan.Rounds

/-!
# The order in which filters are merged

Of filters in a row the first two are merged first, whatever part of the plan is looked at
(`Upward`): a search goes against the flow, and the region that an application changed includes what
leads into it. So conjunctions are nested to the left in any case, and rows of filters far from each
other do not interfere (`confluent_merges`).
-/

namespace Dataflow

open Dataflow.Graph

namespace Net

variable {N M K : Net} {φ : Equiv.Perm NodeId} {x u u' w w' : NodeId} {op op' : Operator}
  {name nu nw : Option String} {c f g : Formula}

/-- The net without the filter `w`, the outputs of which `u` takes over. -/
def merge (N : Net) (u w : NodeId) (op : Operator) : Net where
  op x := if x = w then none else if x = u then some op else N.op x
  outs x := if x = w then [] else if x = u then N.outs w else N.outs x
  ins x := if x = w then [] else (N.ins x).map (renamed w u)

theorem map_merge : (N.merge u w op).map φ = (N.map φ).merge (φ u) (φ w) op := by
  refine (eq_map_iff.mpr ⟨fun x => ?_, fun x => ?_, fun x => ?_⟩).symm
  · simp only [merge, φ.injective.eq_iff, op_map]
  · simp only [merge, φ.injective.eq_iff, outs_map]
    split_ifs <;> rfl
  · simp only [merge, φ.injective.eq_iff, ins_map]
    split_ifs
    · rfl
    · exact map_renamed_apply

/-- Different pairs of filters can be merged in any order. -/
theorem merge_comm (huu' : u ≠ u') (hww' : w ≠ w') (huw' : u ≠ w') (hu'w : u' ≠ w) :
    (N.merge u w op).merge u' w' op' = (N.merge u' w' op').merge u w op := by
  refine Net.ext ?_ ?_ ?_ <;> funext x
  · simp only [merge]
    split_ifs <;> simp_all
  · simp only [merge]
    split_ifs <;> simp_all
  · simp only [merge]
    split_ifs with hw' hw
    · rfl
    · rfl
    · rfl
    · rw [List.map_map, List.map_map]
      exact List.map_congr_left fun y _ => renamed_comm (Ne.symm hu'w) (Ne.symm huw') hww'

theorem op_merge_of_ne (hw : x ≠ w) (hu : x ≠ u) : (N.merge u w op).op x = N.op x := by
  simp [merge, hw, hu]

/-- The filter `u` and its only output, the filter `w`, where `u` itself is not the only output of a
filter. -/
structure Top (N : Net) (u w : NodeId) (nu nw : Option String) (f g : Formula) : Prop where
  upper : N.IsFilter u nu f
  lower : N.IsFilter w nw g
  outs : N.outs u = [w]
  ins : N.ins w = [u]
  first : ∀ a name f, N.IsFilter a name f → N.outs a ≠ [u]

/-- The first two of filters in a row are merged. -/
def Merges (N M : Net) : Prop :=
  ∃ u w nu nw f g c, N.Top u w nu nw f g ∧ Formula.conjunction f g = .ok c ∧
    M = N.merge u w { name := nw.or nu, operation := .filter c }

namespace Top

variable {nu' nw' : Option String} {f' g' : Formula}

theorem unique (h : N.Top u w nu nw f g) (h' : N.Top u w' nu' nw' f' g') :
    w = w' ∧ nu = nu' ∧ nw = nw' ∧ f = f' ∧ g = g' := by
  obtain rfl := List.singleton_inj.mp (h.outs.symm.trans h'.outs)
  have hu := h.upper.symm.trans h'.upper
  have hw := h.lower.symm.trans h'.lower
  simp only [Option.some.injEq, Operator.mk.injEq, Operation.filter.injEq] at hu hw
  exact ⟨rfl, hu.1, hw.1, hu.2.1, hw.2.1⟩

theorem apart (h : N.Top u w nu nw f g) (h' : N.Top u' w' nu' nw' f' g') : u ≠ w' := by
  rintro rfl
  exact h.first u' _ _ h'.upper h'.outs

theorem lower_ne (h : N.Top u w nu nw f g) (h' : N.Top u' w' nu' nw' f' g') (hne : u ≠ u') :
    w ≠ w' := by
  rintro rfl
  exact hne (List.singleton_inj.mp (h.ins.symm.trans h'.ins))

/-- It is still there after another one was merged. -/
theorem merge (h : N.Top u w nu nw f g) (h' : N.Top u' w' nu' nw' f' g') (hne : u ≠ u') :
    (N.merge u w { name, operation := .filter c }).Top u' w' nu' nw' f' g' where
  upper := by
    rw [IsFilter, op_merge_of_ne (h'.apart h) (Ne.symm hne)]
    exact h'.upper
  lower := by
    rw [IsFilter, op_merge_of_ne (Ne.symm (h.lower_ne h' hne)) (Ne.symm (h.apart h'))]
    exact h'.lower
  outs := by
    simp only [Net.merge, if_neg (h'.apart h), if_neg (Ne.symm hne)]
    exact h'.outs
  ins := by
    simp only [Net.merge, if_neg (Ne.symm (h.lower_ne h' hne)), h'.ins, List.map_singleton,
      renamed_of_ne (h'.apart h)]
  first a na fa ha houts := by
    simp only [IsFilter, Net.merge] at ha houts
    split_ifs at ha houts with haw hau
    · exact h'.first w _ _ h.lower houts
    · exact h'.first a _ _ ha houts

theorem map (h : N.Top u w nu nw f g) : (N.map φ).Top (φ u) (φ w) nu nw f g where
  upper := op_map.trans h.upper
  lower := op_map.trans h.lower
  outs := by rw [outs_map, h.outs, List.map_singleton]
  ins := by rw [ins_map, h.ins, List.map_singleton]
  first a name f ha houts := by
    obtain ⟨a, rfl⟩ := φ.surjective a
    rw [outs_map] at houts
    obtain ⟨b, hb, hbu⟩ := List.map_eq_singleton_iff.mp houts
    rw [φ.injective hbu] at hb
    exact h.first a name f (op_map.symm.trans ha) hb

end Top

theorem merges_again (hsame : Same N M) (h : Merges N K) :
    ∃ L, Merges M L ∧ Same K L := by
  obtain ⟨φ, hφ⟩ := hsame
  obtain ⟨u, w, nu, nw, f, g, c, htop, hc, rfl⟩ := h
  have htop' : M.Top (φ u) (φ w) nu nw f g := hφ.eq ▸ htop.map
  refine ⟨_, ⟨φ u, φ w, nu, nw, f, g, c, htop', hc, rfl⟩, φ, ?_, fun x op hop ht => ?_⟩
  · rw [map_merge, hφ.eq]
  · simp only [merge] at hop
    split_ifs at hop with hw hu
    · exact absurd (by rw [← Option.some.inj hop]; rfl) ht
    · exact hφ.fixes x op hop ht

theorem merges_commute (h : Merges N M) (h' : Merges N K) :
    Same M K ∨ ∃ L L', Merges M L ∧ Merges K L' ∧ Same L L' := by
  obtain ⟨u, w, nu, nw, f, g, c, htop, hc, rfl⟩ := h
  obtain ⟨u', w', nu', nw', f', g', c', htop', hc', rfl⟩ := h'
  by_cases huu' : u = u'
  · subst huu'
    obtain ⟨rfl, rfl, rfl, rfl, rfl⟩ := htop.unique htop'
    obtain rfl := Except.ok.inj (hc.symm.trans hc')
    exact .inl .refl
  · refine .inr ⟨_, _, ⟨u', w', nu', nw', f', g', c', htop.merge htop' huu', hc', rfl⟩,
      ⟨u, w, nu, nw, f, g, c, htop'.merge htop (Ne.symm huu'), hc, rfl⟩, ?_⟩
    rw [merge_comm huu' (htop.lower_ne htop' huu') (htop.apart htop') (htop'.apart htop)]
    exact .refl

/-- All ways to merge filters, the first ones of a row first, lead to the same. -/
theorem confluent_merges : Confluent Merges Same where
  refl _ := .refl
  symm h := h.symm
  trans h h' := h.trans h'
  again := merges_again
  commute := merges_commute

end Net

namespace Plan

variable {p q : Plan} {m : Match} {u w x : NodeId} {nu nw : Option String} {f g : Formula}
  {scope : Option (List NodeId)} {region : Region} {config : Config}

/-! ## Merging in plans -/

/-- What merging the filters `u` and `w` comes to. -/
structure MergeAt (p q : Plan) (u w : NodeId) (nu nw : Option String) (f g : Formula) : Prop where
  fit : q.CanMerge
  net : ∃ c, Formula.conjunction f g = .ok c ∧
    q.net = p.net.merge u w { name := nw.or nu, operation := .filter c }
  sources : q.graph.sources = p.graph.sources
  flow : ∀ W, p.HasFlow W → q.HasFlow W

/-- Two filters next to each other that pass the check. -/
structure Adjacent (p : Plan) (u w : NodeId) (nu nw : Option String) (f g : Formula) : Prop where
  upper : p.IsFilter u nu f
  lower : p.IsFilter w nw g
  outs : p.graph.successors u = [w]

theorem Cascade.predecessors_merged {c : Formula} (h : Cascade q p u w c f g)
    (hp : q.graph.WellFormed)
    (x : NodeId) : q.graph.predecessors x =
      if x = w then [] else (p.graph.predecessors x).map (renamed w u) := by
  have habsent : q.graph.contains w = false := by
    rw [contains_eq_core?, h.absent]
    rfl
  split
  · rename_i hx
    rw [hx, predecessors_of_not_contains habsent]
  · rename_i hx
    rw [h.predecessors, if_neg hx, map_renamed_back]
    exact fun hw => h.predecessors_absent hp hw

theorem Cascade.sources_merged {c : Formula} (h : Cascade q p u w c f g)
    (hids : q.graph.ids = p.graph.ids.filter (· != w)) (hp : q.graph.WellFormed) :
    q.graph.sources = p.graph.sources := by
  unfold Graph.sources
  rw [hids, List.filter_filter]
  refine List.filter_congr fun z _ => ?_
  rw [h.predecessors_merged hp]
  by_cases hz : z = w
  · simp [hz, h.predecessors w]
  · simp [hz]

/-- A match that passes the check. -/
theorem adjacent_of_check (hm : Rule.mergeFilter.Matches p m)
    (hc : Rule.mergeFilter.check m p = .ok true p) :
    ∃ u w nu nw f g, m.get 0 = .ok u ∧ m.get 1 = .ok w ∧ p.Adjacent u w nu nw f g := by
  obtain ⟨u, w, rest, nu, nw, f, g, hmu, hmw, hsuc, hf, hg⟩ := Rule.mergeFilter_matches hm
  rw [Rule.mergeFilter_check hmu, hsuc] at hc
  obtain rfl : rest = [] := by simpa using hc
  exact ⟨u, w, nu, nw, f, g, hmu, hmw, hf, hg, hsuc⟩

theorem Adjacent.mergeAt (h : p.Adjacent u w nu nw f g) (hp : p.CanMerge) (hmu : m.get 0 = .ok u)
    (hmw : m.get 1 = .ok w) (ht : Rule.mergeFilter.transform m p = .ok region q) :
    MergeAt p q u w nu nw f g ∧ region = .ofList (u :: p.graph.successors w) := by
  have hwf := hp.sound.wellFormed
  have hroom := conjoinable_of_total hp.sound hp.valid h.upper h.lower
    (hwf.ne_of_edge (by simp [h.outs])) hp.total
  obtain ⟨_, _, c, ht', hs, hv, hcascade, hu, hids, -, hsuc, hc, hregion⟩ :=
    mergeFilter_spec hp.sound hp.valid hmu hmw h.upper h.lower h.outs hroom
  obtain ⟨rfl, rfl⟩ := EStateM.Result.ok.inj (ht.symm.trans ht')
  have hfit : q.CanMerge := ⟨hs, hv, by
    rw [hcascade.total_merge hwf hu h.upper h.lower hids]; exact hp.total⟩
  have hsame : SameIdentities p q := (Refiltered.keeps_mergeFilter.of_ok .refl ht).sameIdentities
  refine ⟨⟨hfit, ⟨c, hc, ?_⟩, hcascade.sources_merged hids hs.wellFormed, fun W hW => ?_⟩, hregion⟩
  · refine Net.ext ?_ ?_ ?_ <;> funext z
    · simp only [Net.merge, op_net]
      split_ifs with hzw hzu
      · exact hzw ▸ hcascade.absent
      · exact hzu ▸ hu
      · exact (hcascade.other z hzu hzw).symm
    · exact hsuc z
    · exact hcascade.predecessors_merged hs.wellFormed z
  · refine hW.cascade_back hcascade hs hv (fun z => ?_) hsame.uids
    exact (hcascade.lasting fun z hzu hzw =>
      (hsame.lasting (hcascade.other z hzu hzw).symm).symm).symm

/-- Where a filter is looked at that could be merged with its output, a filter of which it is the
only output is looked at, too. -/
def Upward (scope : Option (List NodeId)) (p : Plan) : Prop :=
  ∀ ids, scope = some ids → ∀ x ∈ ids, ∀ w nu nw f g, p.Adjacent x w nu nw f g →
    ∀ a, p.HasType a .filter → p.graph.successors a = [x] → a ∈ ids

/-- The first match that is not refused is at the top. -/
theorem Adjacent.top {passed rest : List Match} (h : p.Adjacent u w nu nw f g) (hp : p.CanMerge)
    (hscope : Upward scope p) (hm : m.get 0 = .ok u)
    (hfound : Rule.mergeFilter.findMatches p scope = .ok (passed ++ m :: rest))
    (hrefused : ∀ m ∈ passed, Rule.mergeFilter.check m p = .ok false p) :
    p.net.Top u w nu nw f g := by
  have hwf := hp.sound.wellFormed
  refine ⟨h.upper, h.lower, h.outs, h.lower.predecessors_eq hp.sound hp.valid (by simp [h.outs]),
    fun a name fa ha houts => ?_⟩
  obtain ⟨pattern, hchain, hpair⟩ := Pattern.exists_pair .filter
  have hpattern : Rule.mergeFilter.pattern = .ok pattern := hchain
  have hfilter : p.HasType a .filter := IsFilter.hasType ha
  have houts : p.graph.successors a = [u] := houts
  obtain ⟨b, hb, hmem, hpassed⟩ := Optimizer.mem_passed hwf hpattern hfound
  obtain ⟨_, _, hnodes, -⟩ := hpair.matchAt hb
  obtain rfl : b = u := by simpa [Match.get, hnodes] using hm
  have hedge := (hwf.edge a b).mp (by simp [houts])
  have hrefused := hrefused _ (hpassed a hedge
    (fun ids hids => hscope ids hids b (hmem ids hids) w nu nw f g h a hfilter houts) _
    (hpair.exists_match houts (hwf.ne_of_edge (by simp [houts])) hfilter h.upper.hasType))
  rw [Rule.mergeFilter_check rfl, houts] at hrefused
  cases (EStateM.Result.ok.inj hrefused).1

/-- The region that was changed contains whatever leads into it. -/
theorem MergeAt.upward (h : MergeAt p q u w nu nw f g) (htop : p.net.Top u w nu nw f g) :
    Upward (some ((Region.ofList (u :: p.graph.successors w)).withNeighbors q)) q := by
  have hwf := h.fit.sound.wellFormed
  obtain ⟨c, -, hnet⟩ := h.net
  have houts : ∀ z, q.graph.successors z = (p.net.merge u w _).outs z := fun z => by
    rw [← hnet]
    rfl
  have huw : u ≠ w := by
    rintro rfl
    exact htop.first u _ _ htop.upper htop.outs
  have hu : q.graph.successors u = p.graph.successors w := by
    rw [houts]
    simp [Net.merge, huw]
  have hcu : q.graph.contains u = true := by
    rw [contains_eq_core?, show q.core? u = q.net.op u from rfl, hnet]
    simp [Net.merge, huw]
  -- nothing that could be merged with it leads to the merged filter
  have hfirst : ∀ a, q.HasType a .filter → q.graph.successors a ≠ [u] := by
    intro a ha hau
    obtain ⟨name, fa, hfa⟩ := ha.isFilter
    have hfa : q.net.op a = _ := hfa
    rw [hnet] at hfa
    rw [houts] at hau
    simp only [Net.merge] at hau hfa
    split_ifs at hau hfa with haw hau'
    · have hback : u ∈ q.graph.successors u := by
        rw [hu]
        show u ∈ p.net.outs w
        rw [hau]
        simp
      exact hwf.ne_of_edge hback rfl
    · exact htop.first a name fa hfa hau
  intro ids hids x hx b nx nb fx fb hadj a ha hax
  obtain rfl := Option.some.inj hids
  have hedge := (hwf.edge a x).mp (by simp [hax])
  obtain ⟨id, hid, hcid, hxid⟩ := Region.mem_withNeighbors.mp hx
  rcases hxid with hxid | rfl
  · -- an input of what was changed is not followed by it as a filter, unless it is the merged one
    have hidb : id = b := by simpa [hadj.outs] using (hwf.edge x id).mpr hxid
    subst hidb
    rcases List.mem_cons.mp hid with rfl | hid
    · exact absurd hadj.outs (hfirst x hadj.upper.hasType)
    · have hpre := hadj.lower.predecessors_eq h.fit.sound h.fit.valid (x := u) (by rwa [hu])
      obtain rfl : x = u := by simpa [hpre] using hxid
      exact Region.mem_withNeighbors.mpr ⟨x, by simp, hcu, .inl hedge⟩
  · exact Region.mem_withNeighbors.mpr ⟨x, hid, hcid, .inl hedge⟩

theorem mergeFilter_pure_eq : Rule.mergeFilter.Pure config CanMerge Eq := by
  refine Rule.pure_of_unchanged (fun _ _ _ _ => Optimizer.mergeFilter_unchanged) ?_
  intro m q region r hq hm hc ht
  obtain ⟨u, w, nu, nw, f, g, hmu, hmw, h⟩ := adjacent_of_check hm hc
  exact (h.mergeAt hq hmu hmw ht).1.fit

theorem sameness_canMerge : Sameness CanMerge Eq :=
  sameness_eq fun _ h => h.sound.wellFormed

/-- Where nothing can be merged, the net is at its end. -/
theorem atEnd_merges (h : Rule.mergeFilter.Refuses p) (hp : p.graph.WellFormed) :
    AtEnd Net.Merges p.net := by
  rintro N ⟨u, w, nu, nw, f, g, c, htop, -, -⟩
  obtain ⟨pattern, hchain, hpair⟩ := Pattern.exists_pair .filter
  have houts : p.graph.successors u = [w] := htop.outs
  have hrefused := h ⟨[u, w]⟩ ⟨pattern, u, hchain, hpair.exists_match houts
    (hp.ne_of_edge (by simp [houts])) (IsFilter.hasType htop.upper) (IsFilter.hasType htop.lower)⟩
  rw [Rule.mergeFilter_check rfl, houts] at hrefused
  cases (EStateM.Result.ok.inj hrefused).1

end Plan

namespace Optimizer

open Plan

variable {config : Config} {s t : Progress} {p q : Plan} {n : Nat} {u : Unit}

/-- So many filters of `p` were merged to get `q`. -/
structure MergedTo (p : Plan) (n : Nat) (q : Plan) : Prop where
  fit : q.CanMerge
  takes : Takes Net.Merges n p.net q.net
  sources : q.graph.sources = p.graph.sources
  flow : ∀ W, p.HasFlow W → q.HasFlow W

theorem rounds_mergeFilter (p : Plan) :
    Rounds config Rule.mergeFilter fun n scope q => MergedTo p n q ∧ Upward scope q where
  refused h hrun := by
    refine ⟨?_, fun _ h => by cases h⟩
    exact eq_of_refused sameness_canMerge mergeFilter_pure_eq h.1.fit hrun ▸ h.1
  applied h hrun := by
    obtain ⟨h, hscope⟩ := h
    obtain ⟨passed, m, rest, region, hfound, hrefused, hm, hc, ht, rfl⟩ :=
      exists_taken sameness_canMerge mergeFilter_pure_eq h.fit hrun
    obtain ⟨u, w, nu, nw, f, g, hmu, hmw, hadj⟩ := adjacent_of_check hm hc
    have htop := hadj.top h.fit hscope hmu hfound hrefused
    obtain ⟨hat, rfl⟩ := hadj.mergeAt h.fit hmu hmw ht
    obtain ⟨c, hc, hnet⟩ := hat.net
    have hmerged : MergedTo p _ _ := ⟨hat.fit,
      h.takes.trans (.one ⟨u, w, nu, nw, f, g, c, htop, hc, hnet⟩), hat.sources.trans h.sources,
      fun W hW => hat.flow W (h.flow W hW)⟩
    exact ⟨⟨hmerged, fun _ h => by cases h⟩, hmerged, hat.upward htop⟩

/-- Whatever the order, merging goes on until nothing can be merged. -/
theorem mergedTo_of_repeatSet {name : String} {remaining iteration : Nat} {seen : List Digest}
    (hs : s.plan.CanMerge) (henabled : config.isDisabled Rule.mergeFilter.name = false)
    (h : repeatSet config ⟨name, [Rule.mergeFilter]⟩ remaining iteration seen s = .ok u t)
    (hquiet : t.report.Quiet) : ∃ n, MergedTo s.plan n t.plan ∧ AtEnd Net.Merges t.plan.net ∧
      t.report.applications = (Report.count Rule.mergeFilter.name)^[n] s.report.applications := by
  have hstart : MergedTo s.plan 0 s.plan := ⟨hs, .none, rfl, fun _ hW => hW⟩
  obtain ⟨n, hn⟩ := (rounds_mergeFilter s.plan).of_repeatSet henabled
    ⟨⟨hstart, fun _ h => by cases h⟩, rfl⟩ h hquiet
  exact ⟨n, hn.holds.1, atEnd_merges (refuses_of_repeatSet sameness_canMerge mergeFilter_pure_eq
    hs h
    henabled hquiet) hn.holds.1.fit.sound.wellFormed, hn.counted⟩

end Optimizer

end Dataflow
