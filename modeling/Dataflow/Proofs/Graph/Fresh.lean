import Dataflow.Proofs.Graph.Calls

/-!
# Fresh keys

A new node gets the key that comes next. Choosing a key moves the count behind it, so that every
node has a key below the next one; only the last of all keys has none behind it, and a node that was
put there stands above the count (`Counted`). As long as the count itself does not run over, a new
node can therefore meet no other than that one, and whatever it meets, it changes nothing of the
other nodes (`add_of_events`).
-/

namespace Dataflow.Graph

variable {α : Type} {g g' : Graph α} {a b x id : NodeId} {c : α}

/-- The last of all keys. -/
def lastKey : NodeId := ⟨18446744073709551615⟩

theorem toNat_succ_of_ne_lastKey (h : id ≠ lastKey) : (id.val + 1).toNat = id.val.toNat + 1 := by
  have hne : id.val.toNat ≠ 18446744073709551615 := fun heq => h (NodeId.eq_of_toNat heq)
  have hlt := id.val.toNat_lt
  rw [UInt64.toNat_add]
  exact Nat.mod_eq_of_lt (by simpa using by omega)

/-! ## The count of keys -/

/-- The keys of all nodes lie below the next one, except for the last of all keys. -/
def Counted (g : Graph α) : Prop :=
  ∀ x, g.contains x = true → x.val.toNat < g.nextKey.toNat ∨ x = lastKey

namespace Counted

theorem empty : (Graph.empty : Graph α).Counted := by
  intro x hx
  simp [contains, Graph.empty] at hx

/-- Taking nodes away and counting on. -/
theorem mono (h : g.Counted) (hcontains : ∀ x, g'.contains x = true → g.contains x = true)
    (hkey : g.nextKey.toNat ≤ g'.nextKey.toNat) : g'.Counted := by
  intro x hx
  rcases h x (hcontains x hx) with hlt | hlast
  · exact .inl (Nat.lt_of_lt_of_le hlt hkey)
  · exact .inr hlast

/-- A node under a key that the count passes, or under the last key. -/
theorem place (h : g.Counted) {k : UInt64} (hkey : g.nextKey.toNat ≤ k.toNat)
    (hid : id.val.toNat < k.toNat ∨ id = lastKey) : { g.place id c with nextKey := k }.Counted := by
  intro x hx
  have hx : (g.place id c).contains x = true := hx
  rw [contains_place, Bool.or_eq_true, decide_eq_true_eq] at hx
  rcases hx with rfl | hx
  · exact hid
  · rcases h x hx with hlt | hlast
    · exact .inl (Nat.lt_of_lt_of_le hlt hkey)
    · exact .inr hlast

theorem add (h : g.Counted) (hroom : g.nextKey.toNat + 1 < 2 ^ 64) : (g.add c).2.Counted := by
  have hnext := toNat_nextKey_succ hroom
  refine h.place (by omega) (.inl ?_)
  show g.nextKey.toNat < (g.nextKey + 1).toNat
  omega

theorem insert (h : g.Counted) (hrun : g.insert id c = .ok g') : g'.Counted := by
  unfold Graph.insert at hrun
  split_ifs at hrun
  obtain rfl := Except.ok.inj hrun
  have hmax : (max g.nextKey (id.val + 1)).toNat = max g.nextKey.toNat (id.val + 1).toNat := by
    rw [Nat.max_def]
    show (if g.nextKey ≤ id.val + 1 then id.val + 1 else g.nextKey).toNat = _
    simp only [UInt64.le_iff_toNat_le]
    split <;> rfl
  refine h.place (hmax ▸ Nat.le_max_left _ _) ?_
  by_cases hlast : id = lastKey
  · exact .inr hlast
  · have hsucc := toNat_succ_of_ne_lastKey hlast
    exact .inl (by omega)

/-- Edges may be drawn and cut. -/
theorem steady : Steady (Counted (α := α)) where
  connectAt := keeps_perform fun g g' h hrun => by
    have hnodes := (drawn_of_connectAt hrun).nodes
    exact h.mono (fun x hx => hnodes.contains.symm.trans hx) (by rw [hnodes.nextKey])
  disconnect := keeps_step fun g slots g' h hrun => by
    obtain ⟨-, -, rfl⟩ := disconnect_eq_ok.mp hrun
    refine h.mono (fun x hx => ?_) (Nat.le_refl _)
    -- nothing is known of the edges here, so that the two ends might be the same
    unfold unlink at hx
    rw [contains_eq] at hx ⊢
    simp only [getElem?_modify] at hx
    split_ifs at hx <;> simpa using hx

theorem remove : Pass.Keeps (Counted (α := α)) (step (·.remove id)) := by
  refine keeps_step fun g d g' h hrun => ?_
  obtain ⟨-, -, -, rfl⟩ := remove_eq_ok.mp hrun
  refine h.mono (fun x hx => ?_) (Nat.le_refl _)
  have hx : (g.erased id).contains x = true := hx
  rw [contains_erased, Bool.and_eq_true] at hx
  exact hx.2

theorem addEach : ∀ {items : List (NodeId × α)} {names : Renaming} {g : Graph α}, g.Counted →
    g.nextKey.toNat + items.length < 2 ^ 64 → (addEach (names, g) items).2.Counted := by
  intro items
  induction items with
  | nil =>
    intro names g h _
    exact h
  | cons item items ih =>
    intro names g h hroom
    rw [List.length_cons] at hroom
    have hnext := toNat_nextKey_succ (g := g) (by omega)
    refine ih (h.add (c := item.2) (by omega)) ?_
    show (g.nextKey + 1).toNat + items.length < 2 ^ 64
    omega

theorem absorb {source : Graph α} {root : NodeId} (h : g.Counted)
    (hroom : g.nextKey.toNat + (source.descendants root).length < 2 ^ 64) :
    (Pass.after (Graph.absorb source root) g).Counted := by
  by_cases hnil : source.descendants root = []
  · -- the root is no node, and nothing happens
    unfold Graph.absorb
    rw [hnil]
    exact h
  · have hmembers : ∀ x ∈ source.descendants root, source.contains x = true :=
      fun x hx => contains_of_mem_descendants hx
    have hlen := congrArg List.length (map_fst_contents hmembers)
    rw [List.length_map] at hlen
    unfold Pass.after
    rw [Kept.absorb_eq hnil]
    exact Kept.keeps_draw steady _ (h.addEach (hlen ▸ hroom))

/-- The next key is taken only if it is the last of all. -/
theorem contains_next_iff (h : g.Counted) :
    g.contains ⟨g.nextKey⟩ = true ↔ (⟨g.nextKey⟩ : NodeId) = lastKey ∧
    g.contains lastKey = true := by
  constructor
  · intro hnext
    rcases h _ hnext with hlt | hlast
    · exact absurd hlt (Nat.lt_irrefl _)
    · exact ⟨hlast, hlast ▸ hnext⟩
  · rintro ⟨hlast, hcontains⟩
    rwa [hlast]

end Counted

/-! ## Events -/

/-- Something that is done with a graph. -/
inductive Event (α : Type) where
  | call (c : Call α)
  | update (id : NodeId) (f : α → α)
  /-- A copy of a part of any graph takes its place. -/
  | copyReachable (source : Graph α) (root : NodeId)
  /-- A copy of any graph takes its place. -/
  | clone (source : Graph α)

namespace Event

/-- What the graph is afterwards. A copy that cannot be made takes nobody's place. -/
def run : Event α → Graph α → Graph α
  | .call c, g => Pass.after c.run g
  | .update id f, g => g.update id f
  | .copyReachable source root, g =>
    match source.copyReachable root with
    | .ok (_, copy) => copy
    | .error _ => g
  | .clone source, g =>
    match source.clone with
    | .ok (_, copy) => copy
    | .error _ => g

/-- How far keys are counted. Keys that are chosen are not counted. -/
def count (g : Graph α) : Event α → Nat
  | .call (.add _) => g.nextKey.toNat + 1
  | .call (.absorb source root) => g.nextKey.toNat + (source.descendants root).length
  | .copyReachable source root => (source.descendants root).length
  | .clone source => source.toList.length
  | _ => 0

/-- The graph after some events. -/
def runAll (events : List (Event α)) (g : Graph α) : Graph α :=
  events.foldl (fun g event => event.run g) g

/-- The count of keys runs over at none of the events. -/
def KeysCounted : List (Event α) → Graph α → Prop
  | [], _ => True
  | event :: rest, g => event.count g < 2 ^ 64 ∧ KeysCounted rest (event.run g)

instance decidableKeysCounted : ∀ (events : List (Event α)) (g : Graph α),
    Decidable (KeysCounted events g)
  | [], _ => inferInstanceAs (Decidable True)
  | event :: rest, g =>
    have := decidableKeysCounted rest (event.run g)
    inferInstanceAs (Decidable (_ ∧ _))

theorem counted_call {call : Call α} (h : g.Counted) (hroom : (Event.call call).count g < 2 ^ 64) :
    (Pass.after call.run g).Counted := by
  cases call with
  | add c => exact h.add hroom
  | insert id c =>
    refine keeps_perform (f := (·.insert id c)) (fun g g' h hrun => ?_) g h
    exact h.insert hrun
  | remove id => exact Counted.remove.discard g h
  | connect a b => exact Counted.steady.connectAt g h
  | connectAt a i b j => exact Counted.steady.connectAt g h
  | disconnect a b => exact Counted.steady.disconnect.discard g h
  | insertBetween a x b => exact Counted.steady.insertBetween g h
  | spliceOut x => exact Counted.steady.spliceOut g h
  | bypass x =>
    have hkeeps : Pass.Keeps Counted (Graph.bypass (α := α) x) :=
      .bind Counted.steady.spliceOut fun _ => Counted.remove
    exact hkeeps.discard g h
  | absorb source root =>
    show (Pass.after (discard (Graph.absorb source root)) g).Counted
    rw [Pass.after_discard]
    exact h.absorb hroom

theorem counted_copyReachable {source copy : Graph α} {root root' : NodeId}
    (hroom : (source.descendants root).length < 2 ^ 64)
    (hrun : source.copyReachable root = .ok (root', copy)) : copy.Counted := by
  have hafter : (Pass.after (Graph.absorb source root) Graph.empty).Counted := by
    refine Counted.empty.absorb ?_
    rw [show (Graph.empty : Graph α).nextKey.toNat = 0 from rfl]
    omega
  unfold Graph.copyReachable at hrun
  unfold Pass.after at hafter
  cases habsorb : Graph.absorb source root Graph.empty with
  | ok r t =>
    simp only [habsorb, Except.ok.injEq, Prod.mk.injEq] at hrun hafter
    exact hrun.2 ▸ hafter
  | error e t => simp [habsorb] at hrun

/-- Writing down the inputs of a copy once more leaves its nodes alone. -/
theorem counted_copyInputs {names : Renaming} {source : Graph α} (ids : List NodeId)
    (h : g.Counted) : (ids.foldl (copyInputs names source) g).Counted := by
  induction ids generalizing g with
  | nil => exact h
  | cons id ids ih =>
    refine ih (h.mono (fun x hx => ?_) ?_)
    · unfold copyInputs at hx
      split at hx
      · exact hx
      · rw [contains_eq] at hx ⊢
        simp only [getElem?_modify] at hx
        split_ifs at hx <;> simpa using hx
    · unfold copyInputs
      split <;> exact Nat.le_refl _

theorem counted_clone {source copy : Graph α} {names : Renaming}
    (hroom : source.toList.length < 2 ^ 64) (hrun : source.clone = .ok (names, copy)) :
    copy.Counted := by
  have hadded : (addEach ({}, Graph.empty) source.toList).2.Counted := by
    refine Counted.empty.addEach ?_
    rw [show (Graph.empty : Graph α).nextKey.toNat = 0 from rfl]
    omega
  have hdrawn : Pass.Keeps (Counted (α := α))
      (connectAll (addEach ({}, Graph.empty) source.toList).1 (source.edgesFrom source.ids)) :=
    Counted.steady.connectAll _
  have hdrawn := hdrawn _ hadded
  unfold Pass.after at hdrawn
  have hall : (empty : Graph α).addAll source.toList = addEach ({}, empty) source.toList := rfl
  unfold Graph.clone at hrun
  rw [hall] at hrun
  dsimp only at hrun
  split at hrun
  · simp at hrun
  · next drawn hconnect =>
    simp only [hconnect] at hdrawn
    obtain ⟨-, rfl⟩ := Prod.mk.inj (Except.ok.inj hrun)
    exact counted_copyInputs source.ids hdrawn

/-- Every event keeps the count ahead of the keys, if it does not let it run over. -/
theorem counted_run {event : Event α} (h : g.Counted) (hroom : event.count g < 2 ^ 64) :
    (event.run g).Counted := by
  cases event with
  | call c => exact counted_call h hroom
  | update id f =>
    refine h.mono (fun x hx => ?_) (Nat.le_refl _)
    exact contains_update (g := g) (f := f) ▸ hx
  | copyReachable source root =>
    show Counted (match source.copyReachable root with | .ok (_, copy) => copy | .error _ => g)
    split
    · rename_i hrun
      exact counted_copyReachable hroom hrun
    · exact h
  | clone source =>
    show Counted (match source.clone with | .ok (_, copy) => copy | .error _ => g)
    split
    · rename_i hrun
      exact counted_clone hroom hrun
    · exact h

theorem counted_runAll {events : List (Event α)} (h : g.Counted) (hkeys : KeysCounted events g) :
    (runAll events g).Counted := by
  induction events generalizing g with
  | nil => exact h
  | cons event events ih => exact ih (counted_run h hkeys.1) hkeys.2

end Event

/-- Whatever was done before: a new node is listed behind the others, edges stay as they are, and so
does the content of every node but one under the key that the new node gets. While the count of keys
has not run over, there is one only if that is the last of all keys, and was chosen before. -/
theorem add_of_events {events : List (Event α)} (hg : Event.runAll events Graph.empty = g) (c : α) :
    (g.add c).2.ids = g.ids ++ [(g.add c).1] ∧
      (∀ x, (g.add c).2.successors x = g.successors x ∧
        (g.add c).2.predecessors x = g.predecessors x) ∧
      (∀ x, x ≠ (g.add c).1 → (g.add c).2.content? x = g.content? x) ∧
      (Event.KeysCounted events Graph.empty → (g.contains (g.add c).1 = true ↔
        (g.add c).1 = lastKey ∧ g.contains lastKey = true)) := by
  refine ⟨ids_add, fun x => ⟨successors_add, predecessors_add⟩, fun x hx => ?_, fun hkeys => ?_⟩
  · rw [content?_add, if_neg (by simpa using hx)]
  · have hcounted := Event.counted_runAll Counted.empty hkeys
    rw [hg] at hcounted
    exact hcounted.contains_next_iff

/-- The last key is chosen, another one is chosen and given back, and the whole graph is copied. -/
def chosenKeys : List (Event String) :=
  let chosen : List (Event String) := [.call (.insert lastKey "a"), .call (.add "b"),
    .call (.insert ⟨40⟩ "c"), .call (.connect ⟨0⟩ lastKey), .call (.remove ⟨40⟩),
    .update ⟨0⟩ (· ++ "!")]
  chosen ++ [.call (.absorb (Event.runAll chosen Graph.empty) ⟨0⟩)]

theorem chosenKeys_add :
    let g := Event.runAll chosenKeys Graph.empty
    g.ids = [lastKey, ⟨0⟩, ⟨41⟩, ⟨42⟩] ∧ (g.add "d").1 = ⟨43⟩ ∧ g.contains ⟨43⟩ = false ∧
      (g.add "d").2.ids = [lastKey, ⟨0⟩, ⟨41⟩, ⟨42⟩, ⟨43⟩] ∧
      (g.add "d").2.content? lastKey = some "a" ∧ (g.add "d").2.successors ⟨0⟩ = [lastKey] := by
  intro g
  have hids : g.ids = [lastKey, ⟨0⟩, ⟨41⟩, ⟨42⟩] := by decide +kernel
  have hkey : (g.add "d").1 = ⟨43⟩ := by decide +kernel
  have hkeys : Event.KeysCounted chosenKeys Graph.empty := by decide +kernel
  have hg : Event.runAll chosenKeys Graph.empty = g := rfl
  obtain ⟨hlisted, hedges, hcontent, hfresh⟩ := add_of_events hg "d"
  rw [hkey] at hlisted hcontent hfresh
  refine ⟨hids, hkey, ?_, by rw [hlisted, hids]; rfl, ?_, ?_⟩
  · by_contra hmember
    exact absurd ((hfresh hkeys).mp (by simpa using hmember)).1 (by decide)
  · rw [hcontent lastKey (by decide)]
    decide +kernel
  · rw [(hedges ⟨0⟩).1]
    decide +kernel

/-- With the last two keys chosen, the next node takes the place of one of them. -/
theorem not_added_apart : ¬∀ (events : List (Event String)) (c : String) (g : Graph String),
    Event.runAll events Graph.empty = g → g.contains (g.add c).1 = false ∧
      ∀ x, g.contains x = true → (g.add c).2.content? x = g.content? x := by
  intro hall
  obtain ⟨-, hkept⟩ :=
    hall [.call (.insert lastKey "a"), .call (.insert ⟨18446744073709551614⟩ "b")] "c" _ rfl
  have hkept := hkept lastKey (by decide +kernel)
  exact absurd hkept (by decide +kernel)

end Dataflow.Graph
