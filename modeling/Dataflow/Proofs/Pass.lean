import Dataflow.Plan.Basic

/-!
# Reasoning about passes

A pass either ends with a result or stops with an error, and in both cases leaves a state behind.
The lemmas here take a successful pass apart into the passes it is made of (`bind_eq_ok` and the
lemmas for the elementary passes), and say which properties of the state survive a pass however it
ends (`Keeps`).
-/

namespace Dataflow.Pass

variable {ε σ α β : Type} {s s' : σ} {a b : α} {e : ε}

/-! ## Successful passes -/

theorem bind_eq_ok {x : EStateM ε σ α} {f : α → EStateM ε σ β} {c : β} :
    (x >>= f) s = .ok c s' ↔ ∃ a t, x s = .ok a t ∧ f a t = .ok c s' := by
  change EStateM.bind x f s = _ ↔ _
  unfold EStateM.bind
  cases x s <;> simp [and_assoc]

theorem bind_eq_error {x : EStateM ε σ α} {f : α → EStateM ε σ β} :
    (x >>= f) s = .error e s' ↔
      x s = .error e s' ∨ ∃ a t, x s = .ok a t ∧ f a t = .error e s' := by
  change EStateM.bind x f s = _ ↔ _
  unfold EStateM.bind
  cases x s <;> simp [and_assoc]

theorem bind_of_ok {x : EStateM ε σ α} {f : α → EStateM ε σ β} {t : σ} (h : x s = .ok a t) :
    (x >>= f) s = f a t := by
  change EStateM.bind x f s = _
  simp only [EStateM.bind, h]

theorem bind_congr {x y : EStateM ε σ α} {f g : α → EStateM ε σ β} (hxy : x s = y s)
    (h : ∀ a t, x s = .ok a t → f a t = g a t) : (x >>= f) s = (y >>= g) s := by
  change EStateM.bind x f s = EStateM.bind y g s
  unfold EStateM.bind
  rw [← hxy]
  cases hx : x s with
  | ok a t => exact h a t hx
  | error e t => rfl

/-- Passes that come to the same from different states go on alike. -/
theorem bind_from {x y : EStateM ε σ α} {f : α → EStateM ε σ β} {t : σ} (h : x s = y t) :
    (x >>= f) s = (y >>= f) t := by
  change EStateM.bind x f s = EStateM.bind y f t
  unfold EStateM.bind
  rw [h]

@[simp] theorem pure_apply : (pure a : EStateM ε σ α) s = .ok a s := rfl

@[simp] theorem get_apply : (get : EStateM ε σ σ) s = .ok s s := rfl

@[simp] theorem set_apply {t : σ} : (set t : EStateM ε σ PUnit) s = .ok ⟨⟩ t := rfl

@[simp] theorem modify_apply {f : σ → σ} :
    (modify f : EStateM ε σ PUnit) s = .ok ⟨⟩ (f s) := rfl

@[simp] theorem throw_apply : (throw e : EStateM ε σ α) s = .error e s := rfl

theorem discard_eq_ok {x : EStateM ε σ α} {u : Unit} :
    (discard x) s = .ok u s' ↔ ∃ a, x s = .ok a s' := by
  change EStateM.map _ x s = _ ↔ _
  unfold EStateM.map
  cases x s <;> simp

theorem discard_eq_error {x : EStateM ε σ α} :
    (discard x) s = .error e s' ↔ x s = .error e s' := by
  change EStateM.map _ x s = _ ↔ _
  unfold EStateM.map
  cases x s <;> simp

/-- A pass over a list is the pass over its head followed by the one over the rest. -/
theorem forM_cons {f : α → EStateM ε σ PUnit} {l : List α} :
    (a :: l).forM f = (f a >>= fun _ => l.forM f) := rfl

theorem forM_append {f : α → EStateM ε σ PUnit} : ∀ l l' : List α,
    (l ++ l').forM f = (l.forM f >>= fun _ => l'.forM f)
  | [], _ => rfl
  | a :: l, l' => by
    rw [List.cons_append, forM_cons, forM_cons, forM_append l l', bind_assoc]

/-! ## Results -/

theorem except_bind_eq_ok {x : Except ε α} {f : α → Except ε β} {c : β} :
    (x >>= f) = .ok c ↔ ∃ a, x = .ok a ∧ f a = .ok c := by
  cases x <;> simp [bind, Except.bind]

theorem except_bind_unit_eq_ok {x : Except ε Unit} {f : Unit → Except ε β} {c : β} :
    (x >>= f) = .ok c ↔ x = .ok () ∧ f () = .ok c := by
  cases x <;> simp [bind, Except.bind]

theorem except_bind_eq_error {x : Except ε α} {f : α → Except ε β} :
    (x >>= f) = .error e ↔ x = .error e ∨ ∃ a, x = .ok a ∧ f a = .error e := by
  cases x <;> simp [bind, Except.bind]

/-- Results that agree through a function go on to agree if what follows agrees. -/
theorem except_bind_map_congr {γ δ : Type} {x y : Except ε α} {k k' : α → Except ε β} {f : α → γ}
    {g : β → δ} (h : x.map f = y.map f)
    (hk : ∀ a b, f a = f b → (k a).map g = (k' b).map g) :
    (x >>= k).map g = (y >>= k').map g := by
  cases x with
  | error e => cases y <;> simp_all [Except.map, Bind.bind, Except.bind]
  | ok a =>
    cases y with
    | error e => simp [Except.map] at h
    | ok b => exact hk a b (Except.ok.inj h)

@[simp] theorem except_throw : (throw e : Except ε α) = .error e := rfl

@[simp] theorem except_error_bind {f : α → Except ε β} :
    (Except.error e >>= f) = .error e := rfl

@[simp] theorem except_ok_bind {f : α → Except ε β} : (Except.ok a >>= f) = f a := rfl

@[simp] theorem except_pure : (pure a : Except ε α) = .ok a := rfl

/-- What was made of a list was made of its elements, place by place. -/
theorem mapM_getElem? {f : α → Except ε β} {b : β} : ∀ {as : List α} {bs : List β} {i : Nat},
    as.mapM f = .ok bs → bs[i]? = some b → ∃ a, as[i]? = some a ∧ f a = .ok b
  | [], bs, i, h, hb => by
    obtain rfl : [] = bs := Except.ok.inj h
    simp at hb
  | a :: as, bs, i, h, hb => by
    rw [List.mapM_cons] at h
    obtain ⟨b', hb', h⟩ := except_bind_eq_ok.mp h
    obtain ⟨rest, hrest, h⟩ := except_bind_eq_ok.mp h
    obtain rfl : b' :: rest = bs := Except.ok.inj h
    cases i with
    | zero =>
      obtain rfl : b' = b := by simpa using hb
      exact ⟨a, rfl, hb'⟩
    | succ i =>
      obtain ⟨a', ha', hfa⟩ := mapM_getElem? (i := i) hrest (by simpa using hb)
      exact ⟨a', by simpa using ha', hfa⟩

theorem exists_of_mem_mapM {f : α → Except ε β} {as : List α} {bs : List β}
    (h : as.mapM f = .ok bs) : ∀ b ∈ bs, ∃ a ∈ as, f a = .ok b := by
  intro b hb
  obtain ⟨i, hi⟩ := List.mem_iff_getElem?.mp hb
  obtain ⟨a, ha, hfa⟩ := mapM_getElem? h hi
  exact ⟨a, List.mem_of_getElem? ha, hfa⟩

theorem mapM_congr {f g : α → Except ε β} : ∀ {l : List α}, (∀ a ∈ l, f a = g a) →
    l.mapM f = l.mapM g
  | [], _ => rfl
  | a :: l, h => by
    obtain ⟨ha, hl⟩ := List.forall_mem_cons.mp h
    rw [List.mapM_cons, List.mapM_cons, ha, mapM_congr hl]

/-- Each element gives a result, from which it can be told. -/
theorem exists_mapM {f : α → Except ε β} {g : β → α} {Q : β → Prop} : ∀ {as : List α},
    (∀ a ∈ as, ∃ b, f a = .ok b ∧ g b = a ∧ Q b) →
      ∃ bs, as.mapM f = .ok bs ∧ bs.map g = as ∧ ∀ b ∈ bs, Q b
  | [], _ => ⟨[], rfl, rfl, by simp⟩
  | a :: as, h => by
    obtain ⟨⟨b, hb, hg, hQ⟩, has⟩ := List.forall_mem_cons.mp h
    obtain ⟨bs, hbs, hgs, hQs⟩ := exists_mapM has
    exact ⟨b :: bs, by rw [List.mapM_cons, hb, hbs]; rfl, by rw [List.map_cons, hg, hgs],
      List.forall_mem_cons.mpr ⟨hQ, hQs⟩⟩

/-- What can be told of the elements in the same way before and after. -/
theorem map_of_mapM {γ : Type} {f : α → Except ε β} {g : β → γ} {h : α → γ}
    (hf : ∀ a b, f a = .ok b → g b = h a) : ∀ {as : List α} {bs : List β},
    as.mapM f = .ok bs → bs.map g = as.map h
  | [], bs, hrun => by
    obtain rfl : [] = bs := Except.ok.inj hrun
    rfl
  | a :: as, bs, hrun => by
    rw [List.mapM_cons] at hrun
    obtain ⟨b, hb, hrun⟩ := except_bind_eq_ok.mp hrun
    obtain ⟨rest, hrest, hrun⟩ := except_bind_eq_ok.mp hrun
    obtain rfl : b :: rest = bs := Except.ok.inj hrun
    rw [List.map_cons, List.map_cons, hf a b hb, map_of_mapM hf hrest]

theorem except_map_eq_ok {x : Except ε α} {f : α → β} {c : β} :
    x.map f = .ok c ↔ ∃ a, x = .ok a ∧ f a = c := by
  cases x <;> simp [Except.map]

theorem except_isOk {x : Except ε α} : x.isOk = true ↔ ∃ a, x = .ok a := by
  cases x <;> simp [Except.isOk, Except.toBool]

instance decidableSucceeds {x : EStateM ε σ Unit} : Decidable (∃ t, x s = .ok () t) :=
  match x s with
  | .ok () t => .isTrue ⟨t, rfl⟩
  | .error _ _ => .isFalse (by simp)

/-! ## What survives a pass -/

/-- The state a pass leaves behind, however it ends. -/
def after (x : EStateM ε σ α) (s : σ) : σ :=
  match x s with
  | .ok _ t => t
  | .error _ t => t

theorem after_bind {x : EStateM ε σ α} {f : α → EStateM ε σ β} : after (x >>= f) s =
    match x s with
    | .ok a t => after (f a) t
    | .error _ t => t := by
  unfold after
  change (match EStateM.bind x f s with | .ok _ t => t | .error _ t => t) = _
  unfold EStateM.bind
  cases x s <;> rfl

/-- The value with which a pass ends, if it does not fail. -/
def result? (x : EStateM ε σ α) (s : σ) : Option α :=
  match x s with
  | .ok a _ => some a
  | .error _ _ => none

theorem eq_ok_after {x : EStateM ε σ α} (h : result? x s = some a) : x s = .ok a (after x s) := by
  unfold result? at h
  unfold after
  cases hx : x s with
  | ok b t =>
    rw [hx] at h
    rw [Option.some.inj h]
  | error e t => simp [hx] at h

theorem eq_error_after {x : EStateM ε σ α} (h : result? x s = none) :
    ∃ e, x s = .error e (after x s) := by
  unfold result? at h
  unfold after
  cases hx : x s with
  | ok b t => simp [hx] at h
  | error e t => exact ⟨e, rfl⟩

/-- Whether a pass does not fail, and its value and the state then pass a test. -/
def okWith (x : EStateM ε σ α) (s : σ) (test : α → σ → Bool) : Bool :=
  match x s with
  | .ok a t => test a t
  | .error _ _ => false

theorem exists_of_okWith {x : EStateM ε σ α} {test : α → σ → Bool} (h : okWith x s test = true) :
    ∃ a t, x s = .ok a t ∧ test a t = true := by
  unfold okWith at h
  cases hx : x s with
  | ok a t => exact ⟨a, t, rfl, by rwa [hx] at h⟩
  | error e t => simp [hx] at h

/-- The pass keeps a property of the state, however it ends. -/
def Keeps (I : σ → Prop) (x : EStateM ε σ α) : Prop := ∀ s, I s → I (after x s)

variable {I : σ → Prop}

theorem Keeps.of_ok {x : EStateM ε σ α} (h : Keeps I x) (hs : I s) (hx : x s = .ok a s') :
    I s' := by
  have := h s hs
  simpa only [after, hx] using this

theorem Keeps.of_error {x : EStateM ε σ α} (h : Keeps I x) (hs : I s) (hx : x s = .error e s') :
    I s' := by
  have := h s hs
  simpa only [after, hx] using this

theorem Keeps.pure : Keeps I (pure a : EStateM ε σ α) := fun _ hs => hs

theorem Keeps.get : Keeps I (get : EStateM ε σ σ) := fun _ hs => hs

theorem Keeps.throw : Keeps I (throw e : EStateM ε σ α) := fun _ hs => hs

theorem Keeps.modify {f : σ → σ} (h : ∀ s, I s → I (f s)) :
    Keeps I (modify f : EStateM ε σ PUnit) := h

theorem Keeps.bind {x : EStateM ε σ α} {f : α → EStateM ε σ β} (hx : Keeps I x)
    (hf : ∀ a, Keeps I (f a)) : Keeps I (x >>= f) := by
  intro s hs
  rw [after_bind]
  cases hxs : x s with
  | ok a t => exact hf a t (hx.of_ok hs hxs)
  | error e t => exact hx.of_error hs hxs

/-- What a pass leaves behind does not depend on what is made of its result. -/
theorem after_discard (x : EStateM ε σ α) (s : σ) : after (discard x) s = after x s := by
  unfold after
  cases h : x s with
  | ok a t => rw [discard_eq_ok (u := ()).mpr ⟨a, h⟩]
  | error e t => rw [discard_eq_error.mpr h]

theorem Keeps.discard {x : EStateM ε σ α} (h : Keeps I x) : Keeps I (discard x) := by
  intro s hs
  rw [after_discard]
  exact h s hs

theorem Keeps.forM {f : α → EStateM ε σ PUnit} (h : ∀ a, Keeps I (f a)) :
    ∀ l : List α, Keeps I (l.forM f)
  | [] => Keeps.pure
  | a :: l => Keeps.bind (h a) fun _ => Keeps.forM h l

theorem Keeps.mapM_of_mem {f : α → EStateM ε σ β} : ∀ {l : List α}, (∀ a ∈ l, Keeps I (f a)) →
    Keeps I (l.mapM f)
  | [], _ => by
    rw [List.mapM_nil]
    exact Keeps.pure
  | a :: l, h => by
    rw [List.mapM_cons]
    exact Keeps.bind (h a (by simp)) fun _ =>
      Keeps.bind (Keeps.mapM_of_mem fun b hb => h b (List.mem_cons_of_mem a hb)) fun _ => Keeps.pure

theorem Keeps.mapM {f : α → EStateM ε σ β} (h : ∀ a, Keeps I (f a)) (l : List α) :
    Keeps I (l.mapM f) := .mapM_of_mem fun a _ => h a

end Dataflow.Pass

namespace Dataflow.Plan

variable {β : Type} {p q : Plan} {b : β}

@[simp] theorem ofResult_eq_ok {r : Result β} : ofResult r p = .ok b q ↔ r = .ok b ∧ p = q := by
  cases r <;> simp [ofResult]

@[simp] theorem ofResult_eq_error {r : Result β} {e : Error} :
    ofResult r p = .error e q ↔ r = .error e ∧ p = q := by
  cases r <;> simp [ofResult]

theorem bind_ofResult_eq_ok {γ : Type} {r : Result γ} {k : γ → Edit β} :
    (ofResult r >>= k) p = .ok b q ↔ ∃ a, r = .ok a ∧ k a p = .ok b q := by
  rw [Pass.bind_eq_ok]
  constructor
  · rintro ⟨a, t, ha, hk⟩
    obtain ⟨hr, rfl⟩ := ofResult_eq_ok.mp ha
    exact ⟨a, hr, hk⟩
  · rintro ⟨a, hr, hk⟩
    exact ⟨a, p, ofResult_eq_ok.mpr ⟨hr, rfl⟩, hk⟩

theorem onGraph_eq_ok {edit : Graph.Edit Operator β} :
    onGraph edit p = .ok b q ↔ ∃ g, edit p.graph = .ok b g ∧ q = { p with graph := g } := by
  unfold onGraph
  cases edit p.graph <;> simp [and_assoc, eq_comm]

end Dataflow.Plan

namespace Dataflow.Graph

variable {α β : Type} {g g' : Graph α} {b : β}

@[simp] theorem orError_eq_ok {r : Except Fault β} : orError r = .ok b ↔ r = .ok b := by
  cases r <;> simp [orError]

theorem step_eq_ok {f : Graph α → Except Fault (β × Graph α)} :
    step f g = .ok b g' ↔ f g = .ok (b, g') := by
  unfold step
  cases f g <;> simp [Prod.ext_iff]

theorem perform_eq_ok {f : Graph α → Except Fault (Graph α)} {u : Unit} :
    perform f g = .ok u g' ↔ f g = .ok g' := by
  unfold perform
  rw [step_eq_ok]
  cases f g <;> simp [Except.map]

end Dataflow.Graph
