import Dataflow.Proofs.Graph.Calls
import Dataflow.Proofs.Plan.Outline

/-!
# Formulas of expressions

A statement makes a formula of an expression in two steps: names are replaced by places, for which
only the outlines of the inputs matter (`Expr.resolve_outlines`), and the tree is laid out in a
graph. The graph is sound while there are keys for all parts of the expression
(`Formula.sound_ofExpr`).
-/

namespace Dataflow

open Dataflow.Expr (Inputs)

namespace Schema

theorem indexWhere_outline {test test' : Field → Bool} (h : ∀ f, test f.outline = test' f)
    (s : Schema) : (outline s).indexWhere test = s.indexWhere test' := by
  unfold indexWhere
  rw [outline_eq_map, List.findIdx?_map]
  exact congrArg (s.findIdx? ·) (funext h)

theorem zipIdx_outline (s : Schema) (i : Nat) :
    (outline s).zipIdx i = (s.zipIdx i).map fun x => (x.1.outline, x.2) := by
  rw [outline_eq_map, List.zipIdx_map]
  rfl

/-- Names are found by the outline. -/
theorem indexOf?_outline (s : Schema) (name : String) :
    (outline s).indexOf? name = s.indexOf? name := by
  have hnamed : ∀ f : Field, f.outline.isNamed name = f.isNamed name := fun f => by
    rw [Field.isNamed, Field.isNamed, Field.name_outline]
  have hfull : (outline s).indexWhere (·.name == some name) =
      s.indexWhere (·.name == some name) :=
    indexWhere_outline (fun f => by rw [Field.name_outline]) s
  have hbehind : (outline s).zipIdx.filter (·.1.isNamed name) =
      (s.zipIdx.filter (·.1.isNamed name)).map fun x => (x.1.outline, x.2) := by
    rw [zipIdx_outline, List.filter_map]
    simp only [Function.comp_def, hnamed]
  unfold indexOf?
  rw [hfull, hbehind]
  cases s.indexWhere (·.name == some name) with
  | some i => rfl
  | none =>
    dsimp only
    generalize s.zipIdx.filter (·.1.isNamed name) = found
    cases found with
    | nil => rfl
    | cons x found => cases found <;> rfl

end Schema

namespace Expr

/-- How many parts an expression has. -/
def size : Expr → Nat
  | .const _ | .column _ _ _ | .named _ _ => 1
  | .unary _ e => 1 + e.size
  | .binary _ a b => 1 + a.size + b.size

@[simp] theorem size_onInput (i : Nat) : ∀ e : Expr, (e.onInput i).size = e.size
  | .const _ | .column _ _ _ | .named _ _ => rfl
  | .unary _ e => by rw [onInput, size, size, size_onInput i e]
  | .binary _ a b => by rw [onInput, size, size, size_onInput i a, size_onInput i b]

theorem resolveName_outlines (inputs : Inputs) (user : String) (input : Nat) (name : String) :
    resolveName (Operator.outlines inputs) user input name =
      resolveName inputs user input name := by
  unfold resolveName
  rw [Operator.schemaOf?_outlines]
  cases schemaOf? inputs input with
  | none => rfl
  | some s =>
    cases placeOf? name with
    | some i =>
      simp only [Option.map_some, Option.bind_eq_bind, Option.bind_some, Schema.outline_eq_map,
        List.getElem?_map]
      cases s[i]? with
      | none => rfl
      | some f => simp only [Option.map_some, Option.bind_some, Field.name_outline]
    | none =>
      simp only [Option.map_some, Option.bind_eq_bind, Option.bind_some, Schema.indexOf?_outline]

/-- Names mean places by the outlines of the inputs alone. -/
theorem resolve_outlines (inputs : Inputs) (user : String) : ∀ e : Expr,
    e.resolve (Operator.outlines inputs) user = e.resolve inputs user
  | .const _ | .column _ _ _ => rfl
  | .named input name => resolveName_outlines inputs user input name
  | .unary _ e => by rw [resolve, resolve, resolve_outlines inputs user e]
  | .binary _ a b => by
    rw [resolve, resolve, resolve_outlines inputs user a, resolve_outlines inputs user b]

theorem size_resolve {inputs : Inputs} {user : String} : ∀ {e e' : Expr},
    e.resolve inputs user = .ok e' → e'.size = e.size
  | .const _, e', h | .column _ _ _, e', h => by
    obtain rfl := Except.ok.inj h
    rfl
  | .named input name, e', h => by
    unfold resolve resolveName at h
    split at h
    · obtain rfl := Except.ok.inj h
      rfl
    · split at h
      · obtain rfl := Except.ok.inj h
        rfl
      · simp at h
  | .unary op e, e', h => by
    obtain ⟨a, ha, h⟩ := Pass.except_bind_eq_ok.mp h
    obtain rfl := Except.ok.inj h
    rw [size, size, size_resolve ha]
  | .binary op x y, e', h => by
    obtain ⟨a, ha, h⟩ := Pass.except_bind_eq_ok.mp h
    obtain ⟨b, hb, h⟩ := Pass.except_bind_eq_ok.mp h
    obtain rfl := Except.ok.inj h
    rw [size, size, size_resolve ha, size_resolve hb]

/-- The formula of an expression that reads inputs with these schemas. -/
def compiled (e : Expr) (inputs : Inputs) (user : String) : Result Formula := do
  Formula.ofExpr (← e.resolve inputs user)

theorem compiled_outlines (e : Expr) (inputs : Inputs) (user : String) :
    e.compiled (Operator.outlines inputs) user = e.compiled inputs user := by
  rw [compiled, compiled, resolve_outlines]

end Expr

namespace Formula

open Dataflow.Graph (Kept)

variable {g g' : Graph Term} {id : NodeId} {n : Nat}

theorem kept_of_connect {a b : NodeId} (h : Kept n g)
    (hrun : Graph.orError (g.connect a b) = .ok g') : Kept n g' :=
  h.rewired (h.wellFormed.connectAt_rewired (Graph.orError_eq_ok.mp hrun))

/-- Laying out an expression takes a key for each of its parts. -/
theorem kept_of_plant : ∀ {e : Expr} {g g' : Graph Term} {id : NodeId} {n : Nat}, Kept n g →
    n + e.size < 2 ^ 64 → plant e g = .ok (id, g') → Kept (n + e.size) g'
  | .const v, g, g', id, n, h, hroom, hrun => by
    obtain ⟨-, rfl⟩ := Prod.mk.inj (Except.ok.inj hrun)
    exact h.add hroom _
  | .column input i name, g, g', id, n, h, hroom, hrun => by
    obtain ⟨-, rfl⟩ := Prod.mk.inj (Except.ok.inj hrun)
    exact h.add hroom _
  | .named input name, g, g', id, n, h, hroom, hrun => by simp [plant] at hrun
  | .unary op e, g, g', id, n, h, hroom, hrun => by
    rw [Expr.size, ← Nat.add_assoc] at hroom ⊢
    unfold plant at hrun
    obtain ⟨⟨a, g₁⟩, hplant, hrun⟩ := Pass.except_bind_eq_ok.mp hrun
    obtain ⟨g₂, hconnect, hrun⟩ := Pass.except_bind_eq_ok.mp hrun
    obtain ⟨-, rfl⟩ := Prod.mk.inj (Except.ok.inj hrun)
    have h₁ := kept_of_plant (h.add (by omega) (.unary op)) hroom hplant
    exact kept_of_connect h₁ hconnect
  | .binary op x y, g, g', id, n, h, hroom, hrun => by
    rw [Expr.size, ← Nat.add_assoc, ← Nat.add_assoc] at hroom ⊢
    unfold plant at hrun
    obtain ⟨⟨a, g₁⟩, hplant₁, hrun⟩ := Pass.except_bind_eq_ok.mp hrun
    obtain ⟨g₂, hconnect₁, hrun⟩ := Pass.except_bind_eq_ok.mp hrun
    obtain ⟨⟨b, g₃⟩, hplant₂, hrun⟩ := Pass.except_bind_eq_ok.mp hrun
    obtain ⟨g₄, hconnect₂, hrun⟩ := Pass.except_bind_eq_ok.mp hrun
    obtain ⟨-, rfl⟩ := Prod.mk.inj (Except.ok.inj hrun)
    have h₁ := kept_of_plant (h.add (by omega) (.binary op)) (by omega) hplant₁
    have h₃ := kept_of_plant (kept_of_connect h₁ hconnect₁) hroom hplant₂
    exact kept_of_connect h₃ hconnect₂

theorem sound_ofExpr {e : Expr} {f : Formula} (hroom : e.size < 2 ^ 64) (h : ofExpr e = .ok f) :
    f.Sound := by
  unfold ofExpr at h
  obtain ⟨⟨id, g⟩, hplant, h⟩ := Pass.except_bind_eq_ok.mp h
  obtain rfl := Except.ok.inj h
  have hkept := kept_of_plant Kept.empty (by rwa [Nat.zero_add]) hplant
  exact ⟨hkept.wellFormed, hkept.keysBelow⟩

theorem sound_compiled {e : Expr} {inputs : Inputs} {user : String} {f : Formula}
    (hroom : e.size < 2 ^ 64) (h : e.compiled inputs user = .ok f) : f.Sound := by
  obtain ⟨e', he', h⟩ := Pass.except_bind_eq_ok.mp h
  exact sound_ofExpr (by rwa [Expr.size_resolve he']) h

end Formula

end Dataflow
