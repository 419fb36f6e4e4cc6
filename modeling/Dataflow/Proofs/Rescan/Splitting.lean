import Dataflow.Proofs.Rescan.Descent
import Dataflow.Proofs.Rescan.Edits
import Dataflow.Proofs.Rescan.Net
import Dataflow.Proofs.Rescan.Rounds

/-!
# The order in which conjunctions are split

Splitting a filter leaves the other filters to be split, and what comes of it does not depend on the
order, except that the new filters get the next keys in turn. So all ways to split whatever can be
split lead to the same net up to the keys of filters (`confluent_splits`).
-/

namespace Dataflow

open Dataflow.Graph

namespace Net

variable {N M : Net} {φ ψ : Equiv.Perm NodeId} {x u u' w w' v v' : NodeId}
  {name name' : Option String}
  {l r l' r' : Formula}

/-- The net with two filters in the place of the filter `u`; the second one gets the key `w`. -/
def split (N : Net) (u w : NodeId) (name : Option String) (l r : Formula) : Net where
  op x := if x = u then some { name, operation := .filter l }
    else if x = w then some { operation := .filter r } else N.op x
  outs x := if x = u then [w] else if x = w then N.outs u else N.outs x
  ins x := if x = w then [u] else (N.ins x).map (renamed u w)

theorem map_split : (N.split u w name l r).map φ = (N.map φ).split (φ u) (φ w) name l r := by
  refine (eq_map_iff.mpr ⟨fun x => ?_, fun x => ?_, fun x => ?_⟩).symm
  · simp only [split, φ.injective.eq_iff, op_map]
  · simp only [split, φ.injective.eq_iff, outs_map]
    split_ifs <;> rfl
  · simp only [split, φ.injective.eq_iff, ins_map]
    split_ifs
    · rfl
    · exact map_renamed_apply

/-- Two different filters can be split in any order. -/
theorem split_comm (hww' : w ≠ w') (huw' : u ≠ w') (hu'w : u' ≠ w) (huu' : u ≠ u') :
    (N.split u w name l r).split u' w' name' l' r' =
      (N.split u' w' name' l' r').split u w name l r := by
  refine Net.ext ?_ ?_ ?_ <;> funext x
  · simp only [split]
    split_ifs <;> simp_all
  · simp only [split]
    split_ifs <;> simp_all
  · simp only [split]
    by_cases hw : x = w
    · simp [hw, hww', renamed_of_ne huu']
    by_cases hw' : x = w'
    · simp [hw', Ne.symm hww', renamed_of_ne (Ne.symm huu')]
    · rw [if_neg hw', if_neg hw, if_neg hw, if_neg hw', List.map_map, List.map_map]
      exact List.map_congr_left fun y _ => renamed_comm huw' hu'w huu'

/-- Keys without operator can be exchanged against others. -/
theorem exists_exchange (hw : N.op w = none) (hv : N.op v = none) (hw' : N.op w' = none)
    (hv' : N.op v' = none) (hwv : w ≠ v) (hwv' : w' ≠ v') : ∃ φ : Equiv.Perm NodeId,
      φ w = w' ∧ φ v = v' ∧ ∀ x, N.op x ≠ none → φ x = x := by
  refine ⟨Equiv.swap (Equiv.swap w w' v) v' * Equiv.swap w w', ?_, ?_, fun x hx => ?_⟩
  · rw [Equiv.Perm.mul_apply, Equiv.swap_apply_left, Equiv.swap_apply_of_ne_of_ne _ hwv']
    intro h
    have := (Equiv.swap w w').injective ((Equiv.swap_apply_left w w').trans h)
    exact hwv this
  · rw [Equiv.Perm.mul_apply, Equiv.swap_apply_left]
  · have hne : ∀ {y}, N.op y = none → x ≠ y := fun hy hxy => hx (hxy ▸ hy)
    rw [Equiv.Perm.mul_apply, Equiv.swap_apply_of_ne_of_ne (hne hw) (hne hw'),
      Equiv.swap_apply_of_ne_of_ne _ (hne hv')]
    refine hne ?_
    rw [Equiv.swap_apply_def]
    split_ifs
    · exact hw'
    · exact hw
    · exact hv

theorem op_split_of_ne (hx : x ≠ u) (hw : x ≠ w) : (N.split u w name l r).op x = N.op x := by
  simp [split, hx, hw]

/-- Whatever keeps what is not a filter where it is, keeps it when filters are split. -/
theorem fixes_split {op : Operator} (h : ∀ op, N.op x = some op → op.type ≠ .filter → φ x = x)
    (hop : (N.split u w name l r).op x = some op) (ht : op.type ≠ .filter) : φ x = x := by
  simp only [split] at hop
  split_ifs at hop with hu hw
  · exact absurd (by rw [← Option.some.inj hop]; rfl) ht
  · exact absurd (by rw [← Option.some.inj hop]; rfl) ht
  · exact h op hop ht

/-- Filters split alike in nets that differ in keys leave nets that do. -/
theorem Renames.split (h : Renames φ N M) (hM : M.Closed) (hu : N.op u ≠ none) (hw : N.op w = none)
    (hw' : M.op w' = none) :
    ∃ ψ, Renames ψ (N.split u w name l r) (M.split (φ u) w' name l r) := by
  have hφw : M.op (φ w) = none := by rw [h.eq, op_map, hw]
  have hfix : ∀ x, M.op x ≠ none → Equiv.swap (φ w) w' x = x := fun x hx =>
    Equiv.swap_apply_of_ne_of_ne (fun hxw => hx (hxw ▸ hφw)) fun hxw => hx (hxw ▸ hw')
  refine ⟨Equiv.swap (φ w) w' * φ, ?_, fun x op hop ht => fixes_split (fun op hop ht => ?_) hop ht⟩
  · rw [← map_map, map_split, map_split, ← h.eq, hM.map_eq hfix, Equiv.swap_apply_left, hfix]
    rwa [h.eq, op_map]
  · have hx := h.fixes x op hop ht
    rw [Equiv.Perm.mul_apply, hx, hfix x (by rw [h.op_fixed hop ht]; simp)]

/-- Two filters that are split in either order, with whatever new keys. -/
theorem exists_renames_split (hN : N.Closed) (hu : N.op u ≠ none) (hu' : N.op u' ≠ none)
    (huu' : u ≠ u') (hw : N.op w = none) (hv : N.op v = none) (hw' : N.op w' = none)
    (hv' : N.op v' = none) (hwv : w ≠ v) (hwv' : w' ≠ v') :
    ∃ φ, Renames φ ((N.split u w name l r).split u' v name' l' r')
      ((N.split u' w' name' l' r').split u v' name l r) := by
  obtain ⟨φ, hφw, hφv, hfix⟩ := exists_exchange hw hv hv' hw' hwv (Ne.symm hwv')
  have hne : ∀ {x y}, N.op x ≠ none → N.op y = none → x ≠ y := fun hx hy hxy => hx (hxy ▸ hy)
  refine ⟨φ, ?_, fun x op hop ht => fixes_split (fun op hop ht => fixes_split (fun op hop _ => ?_)
    hop ht) hop ht⟩
  · rw [map_split, map_split, hN.map_eq hfix, hφw, hφv, hfix u hu, hfix u' hu',
      split_comm (Ne.symm hwv') (hne hu hw') (hne hu' hv') huu']
  · exact hfix x (by rw [hop]; simp)

end Net

namespace Plan

variable {p q : Plan} {a b c : {p : Plan // p.CanSplit}} {m : Match} {u : NodeId}
  {name : Option String} {f : Formula} {config : Config}

/-- What splitting the filter `u` by `f` comes to. -/
structure SplitAt (p q : Plan) (u : NodeId) (name : Option String) (f : Formula) : Prop where
  fit : q.CanSplit
  net : ∃ l r, f.splitConjunction = .ok (some (l, r)) ∧
    q.net = p.net.split u ⟨p.graph.nextKey⟩ name l r
  sources : q.graph.sources = p.graph.sources
  flow : ∀ W, p.HasFlow W → q.HasFlow W

theorem Cascade.sources {w : NodeId} {l r : Formula} (h : Cascade p q u w f l r)
    (hids : q.graph.ids = p.graph.ids ++ [w]) (hp : p.graph.WellFormed) :
    q.graph.sources = p.graph.sources := by
  have hlast : [w].filter (fun id => (q.graph.predecessors id).isEmpty) = [] := by
    simp [h.predecessors]
  unfold Graph.sources
  rw [hids, List.filter_append, hlast, List.append_nil]
  refine List.filter_congr fun z hz => ?_
  have hzw : z ≠ w := h.ne_of_contains (hp.contains_of_mem hz)
  rw [h.predecessors, if_neg hzw]
  simp

theorem exists_splitAt (hp : p.CanSplit) (hm : Rule.splitFilter.Matches p m)
    (hanchor : m.anchor = .ok u) (hu : p.IsFilter u name f) (hf : f.isConjunction = true) :
    ∃ region q, Rule.splitFilter.transform m p = .ok region q ∧ SplitAt p q u name f := by
  have hc : Rule.splitFilter.check m p = .ok true p := by
    rw [Rule.splitFilter_check hanchor hu, hf]
  obtain ⟨region, q, _, _, _, _, _, hrun, hfit, -⟩ :=
    Rule.splitFilter_applies hp hm (.refl hp.sound.coherent) hc
  obtain ⟨_, _, l, r, hrun', -, -, -, hcascade, hl, hr, hids, -, hsuc, hsplit⟩ :=
    splitFilter_spec hp.sound hp.valid hanchor hu hf
  obtain ⟨-, rfl⟩ := EStateM.Result.ok.inj (hrun.symm.trans hrun')
  have hwf := hp.sound.wellFormed
  have hsame : SameIdentities p q := (Refiltered.keeps_splitFilter.of_ok .refl hrun).sameIdentities
  refine ⟨region, q, hrun, hfit, ⟨l, r, hsplit, ?_⟩, hcascade.sources hids hwf, fun W hW =>
    hW.cascade hcascade (fun z => hcascade.lasting fun z hzu hzw =>
      hsame.lasting (hcascade.other z hzu hzw)) hsame.uids⟩
  refine Net.ext ?_ ?_ ?_ <;> funext z
  · simp only [Net.split, op_net]
    split_ifs with hzu hzw
    · exact hzu ▸ hl
    · exact hzw ▸ hr
    · exact hcascade.other z hzu hzw
  · exact hsuc z
  · exact hcascade.predecessors z

/-- A conjunction of one plan is split in the other one. -/
def SplitStep (a b : {p : Plan // p.CanSplit}) : Prop :=
  ∃ u name f, a.1.IsFilter u name f ∧ f.isConjunction = true ∧ SplitAt a.1 b.1 u name f

/-- The nets of the plans differ in the keys of their filters only. -/
def SameNet (a b : {p : Plan // p.CanSplit}) : Prop := Net.Same a.1.net b.1.net

/-- Every conjunction can be split. -/
theorem exists_splits (hu : a.1.IsFilter u name f) (hf : f.isConjunction = true) :
    ∃ b, SplitStep a b ∧ SplitAt a.1 b.1 u name f := by
  obtain ⟨pattern, hchain, hsingle⟩ := Pattern.exists_single .filter
  have hm : Rule.splitFilter.Matches a.1 ⟨[u]⟩ :=
    ⟨pattern, u, hchain, hsingle.exists_match hu.hasType⟩
  obtain ⟨region, q, -, h⟩ := exists_splitAt a.2 hm rfl hu hf
  exact ⟨⟨q, h.fit⟩, ⟨u, name, f, hu, hf, h⟩, h⟩

theorem op_nextKey (a : {p : Plan // p.CanSplit}) : a.1.net.op ⟨a.1.graph.nextKey⟩ = none := by
  rw [op_net, ← Option.not_isSome_iff_eq_none, ← contains_eq_core?]
  simp [fresh_of_keysBelow a.2.sound.wellFormed a.2.sound.keysBelow]

/-- The next key after a split was free before it, and is another one than the new filter got. -/
theorem op_nextKey_of_split {l r : Formula}
    (hb : b.1.net = a.1.net.split u ⟨a.1.graph.nextKey⟩ name l r) :
    a.1.net.op ⟨b.1.graph.nextKey⟩ = none ∧
      (⟨a.1.graph.nextKey⟩ : NodeId) ≠ ⟨b.1.graph.nextKey⟩ := by
  have hnone := op_nextKey b
  rw [hb] at hnone
  have hxu : (⟨b.1.graph.nextKey⟩ : NodeId) ≠ u := by
    intro hx
    simp [Net.split, hx] at hnone
  have hxw : (⟨b.1.graph.nextKey⟩ : NodeId) ≠ ⟨a.1.graph.nextKey⟩ := by
    intro hx
    simp only [Net.split, hx, if_true] at hnone
    split_ifs at hnone
  rw [Net.op_split_of_ne hxu hxw] at hnone
  exact ⟨hnone, Ne.symm hxw⟩

theorem closed (a : {p : Plan // p.CanSplit}) : a.1.net.Closed := closed_net a.2.sound.wellFormed

theorem splits_again {a' : {p : Plan // p.CanSplit}} (hsame : SameNet a a') (h : SplitStep a b) :
    ∃ b', SplitStep a' b' ∧ SameNet b b' := by
  obtain ⟨φ, hφ⟩ := hsame
  obtain ⟨u, name, f, hu, hf, hb⟩ := h
  have hu' : a'.1.IsFilter (φ u) name f := by
    show a'.1.net.op (φ u) = _
    rw [hφ.eq, Net.op_map]
    exact hu
  obtain ⟨b', hstep, hb'⟩ := exists_splits hu' hf
  refine ⟨b', hstep, ?_⟩
  obtain ⟨l, r, hlr, hnet⟩ := hb.net
  obtain ⟨l', r', hlr', hnet'⟩ := hb'.net
  obtain ⟨rfl, rfl⟩ : l = l' ∧ r = r' := by simpa using hlr.symm.trans hlr'
  unfold SameNet Net.Same
  rw [hnet, hnet']
  exact hφ.split (closed a') (by rw [show a.1.net.op u = _ from hu]; simp) (op_nextKey a)
    (op_nextKey a')

theorem splits_commute (h : SplitStep a b) (h' : SplitStep a c) :
    SameNet b c ∨ ∃ d e, SplitStep b d ∧ SplitStep c e ∧ SameNet d e := by
  obtain ⟨u, name, f, hu, hf, hb⟩ := h
  obtain ⟨u', name', f', hu', hf', hc⟩ := h'
  obtain ⟨l, r, hlr, hnetb⟩ := hb.net
  obtain ⟨l', r', hlr', hnetc⟩ := hc.net
  by_cases huu' : u = u'
  · subst huu'
    obtain ⟨rfl, rfl⟩ := hu.unique hu'
    obtain ⟨rfl, rfl⟩ : l = l' ∧ r = r' := by simpa using hlr.symm.trans hlr'
    refine .inl ?_
    unfold SameNet
    rw [hnetb, hnetc]
    exact .refl
  -- the other filter is still there
  have hopu : a.1.net.op u = some { name, operation := .filter f } := hu
  have hopu' : a.1.net.op u' = some { name := name', operation := .filter f' } := hu'
  have hfresh := op_nextKey a
  have hne : ∀ {x op}, a.1.net.op x = some op → x ≠ ⟨a.1.graph.nextKey⟩ := by
    rintro x op hx rfl
    rw [hfresh] at hx
    cases hx
  have hub : b.1.IsFilter u' name' f' := by
    show b.1.net.op u' = _
    rw [hnetb, Net.op_split_of_ne (Ne.symm huu') (hne hopu')]
    exact hu'
  have huc : c.1.IsFilter u name f := by
    show c.1.net.op u = _
    rw [hnetc, Net.op_split_of_ne huu' (hne hopu)]
    exact hu
  obtain ⟨d, hbd, hd⟩ := exists_splits hub hf'
  obtain ⟨e, hce, he⟩ := exists_splits huc hf
  obtain ⟨ld, rd, hlrd, hnetd⟩ := hd.net
  obtain ⟨le, re, hlre, hnete⟩ := he.net
  obtain ⟨rfl, rfl⟩ : l' = ld ∧ r' = rd := by simpa using hlr'.symm.trans hlrd
  obtain ⟨rfl, rfl⟩ : l = le ∧ r = re := by simpa using hlr.symm.trans hlre
  refine .inr ⟨d, e, hbd, hce, ?_⟩
  -- the keys of the new filters are different, and were free
  obtain ⟨hv, hwv⟩ := op_nextKey_of_split hnetb
  obtain ⟨hv', hwv'⟩ := op_nextKey_of_split hnetc
  unfold SameNet Net.Same
  rw [hnetd, hnete, hnetb, hnetc]
  exact Net.exists_renames_split (closed a) (by rw [hopu]; simp) (by rw [hopu']; simp) huu'
    hfresh hv
    hfresh hv' hwv hwv'

/-- All ways to split the conjunctions of a plan lead to the same. -/
theorem confluent_splits : Confluent SplitStep SameNet where
  refl _ := .refl
  symm h := h.symm
  trans h h' := h.trans h'
  again := splits_again
  commute := splits_commute

theorem splitFilter_unchanged {answer : Bool} (h : Rule.splitFilter.check m p = .ok answer q) :
    p = q := by
  unfold Rule.splitFilter at h
  dsimp only at h
  obtain ⟨id, -, h⟩ := bind_ofResult_eq_ok.mp h
  rw [Pass.bind_of_ok Pass.get_apply] at h
  obtain ⟨f, -, h⟩ := bind_ofResult_eq_ok.mp h
  exact (EStateM.Result.ok.inj h).2

/-- A match that is split. -/
theorem splitAt_of_transform {region : Region} (hp : p.CanSplit) (hm : Rule.splitFilter.Matches p m)
    (hc : Rule.splitFilter.check m p = .ok true p)
    (ht : Rule.splitFilter.transform m p = .ok region q) :
    ∃ u name f, p.IsFilter u name f ∧ f.isConjunction = true ∧ SplitAt p q u name f := by
  obtain ⟨u, name, f, hanchor, hu⟩ := Rule.splitFilter_matches hm
  rw [Rule.splitFilter_check hanchor hu] at hc
  have hf := (EStateM.Result.ok.inj hc).1
  obtain ⟨region', q', ht', h⟩ := exists_splitAt hp hm hanchor hu hf
  obtain ⟨-, rfl⟩ := EStateM.Result.ok.inj (ht.symm.trans ht')
  exact ⟨u, name, f, hu, hf, h⟩

theorem splitFilter_pure : Rule.splitFilter.Pure config CanSplit Eq := by
  refine Rule.pure_of_unchanged (fun _ _ _ _ => splitFilter_unchanged) ?_
  intro m q region r hq hm hc ht
  obtain ⟨_, _, _, -, -, h⟩ := splitAt_of_transform hq hm hc ht
  exact h.fit

theorem sameness_canSplit : Sameness CanSplit Eq :=
  sameness_eq fun _ h => h.sound.wellFormed

/-- Where nothing can be split, the net is at its end. -/
theorem atEnd_of_refuses (h : Rule.splitFilter.Refuses a.1) : AtEnd SplitStep a := by
  rintro b ⟨u, name, f, hu, hf, -⟩
  obtain ⟨pattern, hchain, hsingle⟩ := Pattern.exists_single .filter
  have hrefused := h ⟨[u]⟩ ⟨pattern, u, hchain, hsingle.exists_match hu.hasType⟩
  rw [Rule.splitFilter_check rfl hu] at hrefused
  rw [(EStateM.Result.ok.inj hrefused).1] at hf
  cases hf

end Plan

namespace Optimizer

open Plan

variable {config : Config} {s t : Progress} {p q : Plan} {n : Nat} {u : Unit}

/-- So many conjunctions of `p` were split to get `q`. -/
structure SplitTo (p : {p : Plan // p.CanSplit}) (n : Nat) (q : Plan) : Prop where
  takes : ∃ h : q.CanSplit, Takes SplitStep n p ⟨q, h⟩
  sources : q.graph.sources = p.1.graph.sources
  flow : ∀ W, p.1.HasFlow W → q.HasFlow W

theorem SplitTo.step {p : {p : Plan // p.CanSplit}} {r : Plan} {w : NodeId} {name : Option String}
    {f : Formula} (h : SplitTo p n q) (hw : q.IsFilter w name f) (hf : f.isConjunction = true)
    (hr : SplitAt q r w name f) : SplitTo p (n + 1) r where
  takes := by
    obtain ⟨hq, htakes⟩ := h.takes
    exact ⟨hr.fit, htakes.trans (.one ⟨w, name, f, hw, hf, hr⟩)⟩
  sources := hr.sources.trans h.sources
  flow W hW := hr.flow W (h.flow W hW)

theorem rounds_splitFilter (p : {p : Plan // p.CanSplit}) :
    Rounds config Rule.splitFilter fun n _ q => SplitTo p n q where
  refused h hrun := by
    obtain ⟨hq, -⟩ := h.takes
    exact eq_of_refused sameness_canSplit splitFilter_pure hq hrun ▸ h
  applied h hrun := by
    obtain ⟨hq, -⟩ := h.takes
    obtain ⟨passed, m, rest, region, -, -, hm, hc, ht, -⟩ :=
      exists_taken sameness_canSplit splitFilter_pure hq hrun
    obtain ⟨w, name, f, hw, hf, hr⟩ := splitAt_of_transform hq hm hc ht
    exact ⟨h.step hw hf hr, h.step hw hf hr⟩

/-- Whatever the order, splitting goes on until nothing can be split. -/
theorem splitTo_of_repeatSet {name : String} {remaining iteration : Nat} {seen : List Digest}
    (hs : s.plan.CanSplit) (henabled : config.isDisabled Rule.splitFilter.name = false)
    (h : repeatSet config ⟨name, [Rule.splitFilter]⟩ remaining iteration seen s = .ok u t)
    (hquiet : t.report.Quiet) : ∃ n, SplitTo ⟨s.plan, hs⟩ n t.plan ∧
      (∀ ht, AtEnd SplitStep ⟨t.plan, ht⟩) ∧
      t.report.applications = (Report.count Rule.splitFilter.name)^[n] s.report.applications := by
  have hstart : SplitTo ⟨s.plan, hs⟩ 0 s.plan := ⟨⟨hs, .none⟩, rfl, fun _ hW => hW⟩
  obtain ⟨n, hn⟩ := (rounds_splitFilter ⟨s.plan, hs⟩).of_repeatSet henabled ⟨hstart, rfl⟩ h hquiet
  exact ⟨n, hn.holds, fun ht => atEnd_of_refuses
    (refuses_of_repeatSet sameness_canSplit splitFilter_pure hs h henabled hquiet), hn.counted⟩

end Optimizer

end Dataflow
