import Dataflow.Proofs.Plan.Layout

/-!
# Merging schemas in any order

A schema widens to another one if every column does: its type gives way to that of the other column,
which either leaves its inner columns open or has inner columns to which the own ones widen. What is
merged from schemas is, up to names and identities, the least schema to which all of them widen
(`IsMerge`), so it does not depend on their order. Whether they can be merged does: a column whose
inner columns are left open hides what is inside of the columns that come later, but not of those
that came before. Only where it hides inner columns that cannot be merged with each other
(`NothingHidden`) the order matters (`union_reordered`).
-/

namespace Dataflow

open Operator

/-! ## Types -/

namespace DataType

variable {s t u g : DataType}

/-- Values of the first type can stand in a column of the second. -/
def WidensTo (s t : DataType) : Prop := s.merge? t = some t

instance (s t : DataType) : Decidable (s.WidensTo t) :=
  inferInstanceAs (Decidable (s.merge? t = some t))

theorem widensTo_iff : s.WidensTo t ↔ s = t ∨ s = .byteArray ∨
    (s.isNumeric ∧ t.isNumeric ∧ s.width?.getD 0 ≤ t.width?.getD 0) := by
  cases s <;> cases t <;> decide

theorem merge?_isSome : (s.merge? t).isSome ↔ s = t ∨ s = .byteArray ∨ t = .byteArray ∨
    (s.isNumeric ∧ t.isNumeric) := by
  cases s <;> cases t <;> decide

theorem WidensTo.refl (s : DataType) : s.WidensTo s := if_pos rfl

theorem WidensTo.trans (hst : s.WidensTo t) (htu : t.WidensTo u) : s.WidensTo u := by
  rw [widensTo_iff] at *
  rcases hst with rfl | rfl | ⟨hs, ht, hle⟩
  · exact htu
  · exact .inr (.inl rfl)
  · rcases htu with rfl | rfl | ⟨-, hu, hle'⟩
    · exact .inr (.inr ⟨hs, ht, hle⟩)
    · cases ht
    · exact .inr (.inr ⟨hs, hu, Nat.le_trans hle hle'⟩)

theorem WidensTo.antisymm : s.WidensTo t → t.WidensTo s → s = t := by
  cases s <;> cases t <;> decide

/-- Types that widen to the same one can be merged. -/
theorem WidensTo.merge?_isSome (hs : s.WidensTo g) (ht : t.WidensTo g) : (s.merge? t).isSome := by
  rw [widensTo_iff] at hs ht
  rw [DataType.merge?_isSome]
  rcases hs with rfl | rfl | ⟨hs, hg, -⟩
  · rcases ht with rfl | rfl | ⟨ht, hs, -⟩
    · exact .inl rfl
    · exact .inr (.inr (.inl rfl))
    · exact .inr (.inr (.inr ⟨hs, ht⟩))
  · exact .inr (.inl rfl)
  · rcases ht with rfl | rfl | ⟨ht, -, -⟩
    · exact .inr (.inr (.inr ⟨hs, hg⟩))
    · exact .inr (.inr (.inl rfl))
    · exact .inr (.inr (.inr ⟨hs, ht⟩))

/-- A merged type is one of the two. -/
theorem eq_or_eq_of_merge? (h : s.merge? t = some u) : u = s ∨ u = t := by
  unfold merge? at h
  split at h
  · exact .inl (Option.some.inj h).symm
  split at h
  · split at h
    · exact .inl (Option.some.inj h).symm
    · exact .inr (Option.some.inj h).symm
  split at h
  · exact .inr (Option.some.inj h).symm
  · exact .inl (Option.some.inj h).symm
  · cases h

theorem merge?_comm : s.merge? t = t.merge? s := by
  cases s <;> cases t <;> rfl

/-- Both types widen to the merged one. -/
theorem widensTo_of_merge? (h : s.merge? t = some u) : s.WidensTo u ∧ t.WidensTo u := by
  rcases eq_or_eq_of_merge? h with rfl | rfl
  · exact ⟨.refl _, merge?_comm.trans h⟩
  · exact ⟨h, .refl _⟩

end DataType

/-! ## Widening -/

mutual

/-- Values of the first column can stand in the second. -/
def Field.WidensTo : Field → Field → Prop
  | ⟨_, t, inner, _, _⟩, b => t.WidensTo b.type ∧ Schema.InnerWidensTo inner b.nested

def Schema.InnerWidensTo : Option (List Field) → Option (List Field) → Prop
  | _, none => True
  | none, some _ => False
  | some s, some t => Schema.WidensTo s t

/-- Rows of the first schema can stand among those of the second. -/
def Schema.WidensTo : List Field → List Field → Prop
  | [], [] => True
  | a :: as, b :: bs => a.WidensTo b ∧ Schema.WidensTo as bs
  | _, _ => False

end

mutual

theorem Field.WidensTo.refl : ∀ a : Field, a.WidensTo a
  | ⟨_, t, inner, _, _⟩ => ⟨.refl t, Schema.innerWidensTo_refl inner⟩

theorem Schema.innerWidensTo_refl : ∀ s : Option (List Field), Schema.InnerWidensTo s s
  | none => trivial
  | some s => Schema.WidensTo.refl s

theorem Schema.WidensTo.refl : ∀ s : List Field, Schema.WidensTo s s
  | [] => trivial
  | a :: as => ⟨Field.WidensTo.refl a, Schema.WidensTo.refl as⟩

end

mutual

theorem Field.WidensTo.trans : ∀ {a b c : Field}, a.WidensTo b → b.WidensTo c → a.WidensTo c
  | ⟨_, _, _, _, _⟩, ⟨_, _, _, _, _⟩, ⟨_, _, _, _, _⟩, hab, hbc =>
    ⟨hab.1.trans hbc.1, Schema.innerWidensTo_trans hab.2 hbc.2⟩

theorem Schema.innerWidensTo_trans : ∀ {s t u : Option (List Field)},
    Schema.InnerWidensTo s t → Schema.InnerWidensTo t u → Schema.InnerWidensTo s u
  | _, _, none, _, _ => by simp [Schema.InnerWidensTo]
  | some _, some _, some _, hst, htu => Schema.WidensTo.trans hst htu

theorem Schema.WidensTo.trans : ∀ {s t u : List Field},
    Schema.WidensTo s t → Schema.WidensTo t u → Schema.WidensTo s u
  | [], [], [], _, _ => trivial
  | _ :: _, _ :: _, _ :: _, hst, htu => ⟨hst.1.trans htu.1, Schema.WidensTo.trans hst.2 htu.2⟩

end

mutual

/-- Columns that widen to each other are the same up to names and identities. -/
theorem Field.WidensTo.blank_eq : ∀ {a b : Field}, a.WidensTo b → b.WidensTo a → a.blank = b.blank
  | ⟨_, _, _, _, _⟩, ⟨_, _, _, _, _⟩, hab, hba => by
    rw [Field.blank_eq, Field.blank_eq, hab.1.antisymm hba.1,
      Schema.map_blank_eq_of_innerWidensTo hab.2 hba.2]

theorem Schema.map_blank_eq_of_innerWidensTo : ∀ {s t : Option (List Field)},
    Schema.InnerWidensTo s t → Schema.InnerWidensTo t s → s.map Schema.blank = t.map Schema.blank
  | none, none, _, _ => rfl
  | some _, some _, hst, hts => congrArg some (Schema.WidensTo.blank_eq hst hts)

theorem Schema.WidensTo.blank_eq : ∀ {s t : List Field},
    Schema.WidensTo s t → Schema.WidensTo t s → Schema.blank s = Schema.blank t
  | [], [], _, _ => rfl
  | _ :: _, _ :: _, hst, hts => by
    rw [Schema.blank_cons, Schema.blank_cons, hst.1.blank_eq hts.1,
      Schema.WidensTo.blank_eq hst.2 hts.2]

end

/-! ## Merging two schemas -/

theorem Field.merge?_eq_some {a b f : Field} : a.merge? b = some f ↔
    ∃ t inner, a.type.merge? b.type = some t ∧ Schema.nestedMerge? a.nested b.nested = some inner ∧
      ⟨a.name, t, inner, a.uid, []⟩ = f := by
  obtain ⟨n, t, inner, u, ps⟩ := a
  simp [Field.merge?, Option.bind_eq_some_iff]

theorem Schema.merge?_cons_eq_some {a b : Field} {as bs r : List Field} :
    Schema.merge? (a :: as) (b :: bs) = some r ↔
      ∃ f rest, a.merge? b = some f ∧ Schema.merge? as bs = some rest ∧ f :: rest = r := by
  simp [Schema.merge?, Option.bind_eq_some_iff]

theorem Field.merge?_isSome {a b : Field} : (a.merge? b).isSome ↔
    (a.type.merge? b.type).isSome ∧ (Schema.nestedMerge? a.nested b.nested).isSome := by
  simp only [Option.isSome_iff_exists, Field.merge?_eq_some]
  constructor
  · rintro ⟨_, t, inner, ht, hinner, -⟩
    exact ⟨⟨t, ht⟩, inner, hinner⟩
  · rintro ⟨⟨t, ht⟩, inner, hinner⟩
    exact ⟨_, t, inner, ht, hinner, rfl⟩

theorem Schema.merge?_cons_isSome {a b : Field} {as bs : List Field} :
    (Schema.merge? (a :: as) (b :: bs)).isSome ↔
      (a.merge? b).isSome ∧ (Schema.merge? as bs).isSome := by
  simp only [Option.isSome_iff_exists, Schema.merge?_cons_eq_some]
  constructor
  · rintro ⟨_, f, rest, hf, hrest, -⟩
    exact ⟨⟨f, hf⟩, rest, hrest⟩
  · rintro ⟨⟨f, hf⟩, rest, hrest⟩
    exact ⟨_, f, rest, hf, hrest, rfl⟩

mutual

/-- Both columns widen to the merged one. -/
theorem Field.widensTo_of_merge? : ∀ {a b f : Field}, a.merge? b = some f →
    a.WidensTo f ∧ b.WidensTo f
  | ⟨_, _, inner, _, _⟩, ⟨_, _, inner', _, _⟩, f, h => by
    obtain ⟨t, merged, ht, hmerged, rfl⟩ := Field.merge?_eq_some.mp h
    obtain ⟨hs, ht⟩ := DataType.widensTo_of_merge? ht
    obtain ⟨hinner, hinner'⟩ := Schema.innerWidensTo_of_nestedMerge? hmerged
    exact ⟨⟨hs, hinner⟩, ⟨ht, hinner'⟩⟩

theorem Schema.innerWidensTo_of_nestedMerge? : ∀ {s t r : Option (List Field)},
    Schema.nestedMerge? s t = some r → Schema.InnerWidensTo s r ∧ Schema.InnerWidensTo t r
  | some s, some t, r, h => by
    obtain ⟨merged, hmerged, rfl⟩ := Option.map_eq_some_iff.mp h
    exact Schema.widensTo_of_merge? hmerged
  | none, t, r, h => by
    cases t <;> cases h <;> exact ⟨trivial, trivial⟩
  | some s, none, r, h => by
    cases h
    exact ⟨trivial, trivial⟩

theorem Schema.widensTo_of_merge? : ∀ {s t r : List Field}, Schema.merge? s t = some r →
    Schema.WidensTo s r ∧ Schema.WidensTo t r
  | [], [], r, h => by
    cases h
    exact ⟨trivial, trivial⟩
  | a :: as, b :: bs, r, h => by
    obtain ⟨f, rest, hf, hrest, rfl⟩ := Schema.merge?_cons_eq_some.mp h
    obtain ⟨ha, hb⟩ := Field.widensTo_of_merge? hf
    obtain ⟨has, hbs⟩ := Schema.widensTo_of_merge? hrest
    exact ⟨⟨ha, has⟩, ⟨hb, hbs⟩⟩

end

mutual

/-- The merged column widens to whatever both columns widen to. -/
theorem Field.merge?_least : ∀ {a b f g : Field}, a.merge? b = some f → a.WidensTo g →
    b.WidensTo g → f.WidensTo g
  | ⟨_, _, _, _, _⟩, ⟨_, _, _, _, _⟩, f, g, h, ha, hb => by
    obtain ⟨t, merged, ht, hmerged, rfl⟩ := Field.merge?_eq_some.mp h
    refine ⟨?_, Schema.nestedMerge?_least hmerged ha.2 hb.2⟩
    rcases DataType.eq_or_eq_of_merge? ht with rfl | rfl
    · exact ha.1
    · exact hb.1

theorem Schema.nestedMerge?_least : ∀ {s t r g : Option (List Field)},
    Schema.nestedMerge? s t = some r → Schema.InnerWidensTo s g → Schema.InnerWidensTo t g →
      Schema.InnerWidensTo r g
  | _, _, _, none, _, _, _ => by simp [Schema.InnerWidensTo]
  | some s, some t, r, some g, h, hs, ht => by
    obtain ⟨merged, hmerged, rfl⟩ := Option.map_eq_some_iff.mp h
    exact Schema.merge?_least hmerged hs ht

theorem Schema.merge?_least : ∀ {s t r g : List Field}, Schema.merge? s t = some r →
    Schema.WidensTo s g → Schema.WidensTo t g → Schema.WidensTo r g
  | [], [], r, g, h, hs, _ => by
    cases h
    exact hs
  | a :: as, b :: bs, r, c :: cs, h, hs, ht => by
    obtain ⟨f, rest, hf, hrest, rfl⟩ := Schema.merge?_cons_eq_some.mp h
    exact ⟨Field.merge?_least hf hs.1 ht.1, Schema.merge?_least hrest hs.2 ht.2⟩

end

mutual

/-- What can be merged with both columns can be merged with the merged one. -/
theorem Field.merge?_isSome_of_merge? : ∀ {a b c f : Field}, a.merge? b = some f →
    (a.merge? c).isSome → (b.merge? c).isSome → (f.merge? c).isSome
  | ⟨_, _, inner, _, _⟩, ⟨_, _, inner', _, _⟩, c, f, h, ha, hb => by
    obtain ⟨t, merged, ht, hmerged, rfl⟩ := Field.merge?_eq_some.mp h
    obtain ⟨ha, hinner⟩ := Field.merge?_isSome.mp ha
    obtain ⟨hb, hinner'⟩ := Field.merge?_isSome.mp hb
    refine Field.merge?_isSome.mpr
      ⟨?_, Schema.nestedMerge?_isSome_of_merge? hmerged hinner hinner'⟩
    rcases DataType.eq_or_eq_of_merge? ht with rfl | rfl
    · exact ha
    · exact hb

theorem Schema.nestedMerge?_isSome_of_merge? : ∀ {s t u r : Option (List Field)},
    Schema.nestedMerge? s t = some r → (Schema.nestedMerge? s u).isSome →
      (Schema.nestedMerge? t u).isSome → (Schema.nestedMerge? r u).isSome
  | some s, some t, some u, r, h, hs, ht => by
    obtain ⟨merged, hmerged, rfl⟩ := Option.map_eq_some_iff.mp h
    simp only [Schema.nestedMerge?, Option.isSome_map] at hs ht ⊢
    exact Schema.merge?_isSome_of_merge? hmerged hs ht
  | _, _, none, r, _, _, _ => by cases r <;> rfl
  | none, t, some u, r, h, _, _ => by
    cases t <;> cases h <;> rfl
  | some s, none, some u, r, h, _, _ => by
    cases h
    rfl

theorem Schema.merge?_isSome_of_merge? : ∀ {s t u r : List Field}, Schema.merge? s t = some r →
    (Schema.merge? s u).isSome → (Schema.merge? t u).isSome → (Schema.merge? r u).isSome
  | [], [], u, r, h, hs, _ => by
    cases h
    exact hs
  | a :: as, b :: bs, c :: cs, r, h, hs, ht => by
    obtain ⟨f, rest, hf, hrest, rfl⟩ := Schema.merge?_cons_eq_some.mp h
    obtain ⟨ha, has⟩ := Schema.merge?_cons_isSome.mp hs
    obtain ⟨hb, hbs⟩ := Schema.merge?_cons_isSome.mp ht
    exact Schema.merge?_cons_isSome.mpr
      ⟨Field.merge?_isSome_of_merge? hf ha hb, Schema.merge?_isSome_of_merge? hrest has hbs⟩

end

/-! ## Open columns -/

namespace Schema

/-- The inner columns at a path of places; none where a column is left open or where there is
none. -/
def innerAt? (s : Schema) : List Nat → Option Schema
  | [] => some s
  | i :: path => do innerAt? (← (← s[i]?).nested) path

theorem getElem?_merge? : ∀ {s t r : List Field} {i : Nat} {a b : Field},
    Schema.merge? s t = some r → s[i]? = some a → t[i]? = some b →
      ∃ f, r[i]? = some f ∧ a.merge? b = some f
  | _ :: _, _ :: _, _, 0, _, _, h, rfl, rfl => by
    obtain ⟨f, rest, hf, -, rfl⟩ := Schema.merge?_cons_eq_some.mp h
    exact ⟨f, rfl, hf⟩
  | _ :: _, _ :: _, _, i + 1, a, b, h, ha, hb => by
    obtain ⟨f, rest, -, hrest, rfl⟩ := Schema.merge?_cons_eq_some.mp h
    exact getElem?_merge? (i := i) hrest ha hb

/-- Inner columns that are known in two schemas are merged in the merged one. -/
theorem innerAt?_merge? : ∀ {path : List Nat} {s t r u v : Schema}, Schema.merge? s t = some r →
    innerAt? s path = some u → innerAt? t path = some v →
      ∃ w, Schema.merge? u v = some w ∧ innerAt? r path = some w
  | [], s, t, r, u, v, h, hu, hv => by
    cases hu
    cases hv
    exact ⟨r, h, rfl⟩
  | i :: path, s, t, r, u, v, h, hu, hv => by
    simp only [innerAt?, Option.bind_eq_bind, Option.bind_eq_some_iff] at hu hv
    obtain ⟨a, ha, s', hs', hu⟩ := hu
    obtain ⟨b, hb, t', ht', hv⟩ := hv
    obtain ⟨f, hf, hmerge⟩ := getElem?_merge? h ha hb
    obtain ⟨_, inner, -, hinner, rfl⟩ := Field.merge?_eq_some.mp hmerge
    rw [hs', ht'] at hinner
    obtain ⟨merged, hmerged, rfl⟩ := Option.map_eq_some_iff.mp hinner
    obtain ⟨w, hw, hr⟩ := innerAt?_merge? hmerged hu hv
    exact ⟨w, hw, by simp [innerAt?, hf, hr]⟩

end Schema

mutual

/-- Columns that widen to the same one can be merged if all inner columns can that it leaves
open. -/
theorem Field.merge?_isSome_of_widensTo : ∀ {a b c : Field}, a.WidensTo c → b.WidensTo c →
    (∀ path, c.nested.bind (Schema.innerAt? · path) = none → ∀ u v,
      a.nested.bind (Schema.innerAt? · path) = some u →
      b.nested.bind (Schema.innerAt? · path) = some v → (Schema.merge? u v).isSome) →
    (a.merge? b).isSome
  | ⟨_, _, inner, _, _⟩, ⟨_, _, inner', _, _⟩, c, ha, hb, hopen =>
    Field.merge?_isSome.mpr ⟨ha.1.merge?_isSome hb.1,
      Schema.nestedMerge?_isSome_of_widensTo ha.2 hb.2 hopen⟩

theorem Schema.nestedMerge?_isSome_of_widensTo : ∀ {s t r : Option (List Field)},
    Schema.InnerWidensTo s r → Schema.InnerWidensTo t r →
    (∀ path, r.bind (Schema.innerAt? · path) = none → ∀ u v,
      s.bind (Schema.innerAt? · path) = some u → t.bind (Schema.innerAt? · path) = some v →
      (Schema.merge? u v).isSome) →
    (Schema.nestedMerge? s t).isSome
  | none, t, r, _, _, _ => by cases t <;> rfl
  | some s, none, r, _, _, _ => rfl
  | some s, some t, none, _, _, hopen => by
    rw [Schema.nestedMerge?, Option.isSome_map]
    exact hopen [] rfl s t rfl rfl
  | some s, some t, some r, hs, ht, hopen => by
    rw [Schema.nestedMerge?, Option.isSome_map]
    exact Schema.merge?_isSome_of_widensTo hs ht hopen

/-- Schemas that widen to the same one can be merged if all inner columns can that it leaves
open. -/
theorem Schema.merge?_isSome_of_widensTo : ∀ {s t r : List Field}, Schema.WidensTo s r →
    Schema.WidensTo t r →
    (∀ path, Schema.innerAt? r path = none → ∀ u v, Schema.innerAt? s path = some u →
      Schema.innerAt? t path = some v → (Schema.merge? u v).isSome) →
    (Schema.merge? s t).isSome
  | [], [], _, _, _, _ => rfl
  | [], _ :: _, [], _, ht, _ => ht.elim
  | [], _ :: _, _ :: _, hs, _, _ => hs.elim
  | _ :: _, [], [], hs, _, _ => hs.elim
  | _ :: _, [], _ :: _, _, ht, _ => ht.elim
  | a :: as, b :: bs, c :: cs, hs, ht, hopen => by
    refine Schema.merge?_cons_isSome.mpr ⟨Field.merge?_isSome_of_widensTo hs.1 ht.1 fun path =>
      hopen (0 :: path), Schema.merge?_isSome_of_widensTo hs.2 ht.2 fun path => ?_⟩
    cases path with
    | nil => exact fun h => nomatch h
    | cons i path => exact hopen ((i + 1) :: path)

end

/-! ## Merging all schemas -/

namespace Operator

variable {known known' : List Schema} {s t r r' : Schema}

/-- Inner columns that are left open in one of the schemas hide nothing: those that the others have
there can be merged with each other. -/
def NothingHidden (known : List Schema) : Prop :=
  ∀ path, (∃ s ∈ known, s.innerAt? path = none) → ∀ s ∈ known, ∀ t ∈ known, ∀ u v,
    s.innerAt? path = some u → t.innerAt? path = some v → (Schema.merge? u v).isSome

/-- The least schema to which all the given ones widen; inner columns are open in it only where they
are in one of them. -/
structure IsMerge (known : List Schema) (r : Schema) : Prop where
  widens : ∀ s ∈ known, Schema.WidensTo s r
  least : ∀ g, (∀ s ∈ known, Schema.WidensTo s g) → Schema.WidensTo r g
  opened : ∀ path, r.innerAt? path = none → ∃ s ∈ known, s.innerAt? path = none

theorem mergeAll?_cons_cons (s t : Schema) (rest : List Schema) :
    mergeAll? (s :: t :: rest) = (Schema.merge? s t).bind fun m => mergeAll? (m :: rest) := rfl

theorem isMerge_of_mergeAll? (h : mergeAll? known = some r) : IsMerge known r := by
  match known with
  | [] => cases h
  | s :: rest =>
    induction rest generalizing s with
    | nil =>
      obtain rfl : s = r := Option.some.inj h
      exact ⟨by simpa using Schema.WidensTo.refl s, fun g hg => hg s (by simp),
        fun path hpath => ⟨s, by simp, hpath⟩⟩
    | cons t rest ih =>
      rw [mergeAll?_cons_cons] at h
      obtain ⟨m, hm, h⟩ := Option.bind_eq_some_iff.mp h
      obtain ⟨hwidens, hleast, hopened⟩ := ih m h
      rw [List.forall_mem_cons] at hwidens
      obtain ⟨hs, ht⟩ := Schema.widensTo_of_merge? hm
      refine ⟨?_, fun g hg => hleast g ?_, fun path hpath => ?_⟩
      · simp only [List.forall_mem_cons]
        exact ⟨hs.trans hwidens.1, ht.trans hwidens.1, hwidens.2⟩
      · simp only [List.forall_mem_cons] at hg ⊢
        exact ⟨Schema.merge?_least hm hg.1 hg.2.1, hg.2.2⟩
      · obtain ⟨x, hx, hnone⟩ := hopened path hpath
        rcases List.mem_cons.mp hx with rfl | hx
        · by_contra hall
          push Not at hall
          obtain ⟨u, hu⟩ := Option.ne_none_iff_exists'.mp (hall s (by simp))
          obtain ⟨v, hv⟩ := Option.ne_none_iff_exists'.mp (hall t (by simp))
          obtain ⟨w, -, hw⟩ := Schema.innerAt?_merge? hm hu hv
          rw [hnone] at hw
          cases hw
        · exact ⟨x, by simp [hx], hnone⟩

/-- Whatever the order of the schemas, the merged one is the same up to names and identities. -/
theorem IsMerge.blank_eq (h : IsMerge known r) (h' : IsMerge known' r')
    (hmem : ∀ s, s ∈ known ↔ s ∈ known') : r.blank = r'.blank :=
  (h.least r' fun s hs => h'.widens s ((hmem s).mp hs)).blank_eq
    (h'.least r fun s hs => h.widens s ((hmem s).mpr hs))

/-- Schemas are merged if every one can be merged with those behind it. -/
theorem mergeAll?_isSome (hne : known ≠ [])
    (h : known.Pairwise fun s t => (Schema.merge? s t).isSome) : (mergeAll? known).isSome := by
  match known, hne with
  | s :: rest, _ =>
    induction rest generalizing s with
    | nil => rfl
    | cons t rest ih =>
      obtain ⟨hs, h⟩ := List.pairwise_cons.mp h
      obtain ⟨ht, h⟩ := List.pairwise_cons.mp h
      rw [List.forall_mem_cons] at hs
      obtain ⟨m, hm⟩ := Option.isSome_iff_exists.mp hs.1
      rw [mergeAll?_cons_cons, hm]
      refine ih m (by simp) (List.pairwise_cons.mpr ⟨fun x hx => ?_, h⟩)
      exact Schema.merge?_isSome_of_merge? hm (hs.2 x hx) (ht x hx)

/-- If nothing is hidden, schemas that were merged in some order can be merged in pairs. -/
theorem NothingHidden.merge?_isSome (h : NothingHidden known) (hr : IsMerge known r)
    (hs : s ∈ known) (ht : t ∈ known) : (Schema.merge? s t).isSome :=
  Schema.merge?_isSome_of_widensTo (hr.widens s hs) (hr.widens t ht) fun path hpath =>
    h path (hr.opened path hpath) s hs t ht

theorem NothingHidden.mergeAll?_isSome (h : NothingHidden known) (hperm : known.Perm known')
    (hsome : (mergeAll? known).isSome) : (mergeAll? known').isSome := by
  obtain ⟨r, hr⟩ := Option.isSome_iff_exists.mp hsome
  refine Operator.mergeAll?_isSome ?_ (List.pairwise_of_forall_mem_list fun s hs t ht => ?_)
  · rintro rfl
    rw [hperm.eq_nil] at hr
    cases hr
  · exact h.merge?_isSome (isMerge_of_mergeAll? hr) (hperm.mem_iff.mpr hs) (hperm.mem_iff.mpr ht)

theorem NothingHidden.perm (h : NothingHidden known) (hperm : known.Perm known') :
    NothingHidden known' := by
  intro path ⟨x, hx, hnone⟩ s hs t ht
  exact h path ⟨x, hperm.mem_iff.mpr hx, hnone⟩ s (hperm.mem_iff.mpr hs) t (hperm.mem_iff.mpr ht)

/-- What is hidden comes to light in some order. -/
theorem exists_perm_of_hidden (h : ¬NothingHidden known) :
    ∃ order : List Schema, order.Perm known ∧ mergeAll? order = none := by
  simp only [NothingHidden, not_forall] at h
  obtain ⟨path, -, s, hs, t, ht, u, v, hu, hv, hmerge⟩ := h
  have hst : Schema.merge? s t = none := by
    by_contra hsome
    obtain ⟨m, hm⟩ := Option.ne_none_iff_exists'.mp hsome
    obtain ⟨w, hw, -⟩ := Schema.innerAt?_merge? hm hu hv
    exact hmerge (Option.isSome_of_eq_some hw)
  have hne : t ≠ s := by
    rintro rfl
    have hself := Schema.merge?_isSome_of_widensTo (Schema.WidensTo.refl t) (Schema.WidensTo.refl t)
      fun path hnone u v hu => nomatch hnone.symm.trans hu
    rw [hst] at hself
    cases hself
  have hmem : t ∈ known.erase s := (List.mem_erase_of_ne hne).mpr ht
  refine ⟨s :: t :: (known.erase s).erase t, ?_, by rw [mergeAll?_cons_cons, hst]; rfl⟩
  exact ((List.perm_cons_erase hs).trans ((List.perm_cons_erase hmem).cons s)).symm

/-! ## Unions -/

theorem allKnown?_map_some : ∀ known : List Schema, allKnown? (known.map some) = some known
  | [] => rfl
  | s :: known => by
    rw [List.map_cons, allKnown?_cons, allKnown?_map_some known]
    rfl

theorem blank_unionSchema_of_known (chosen : List Uid) (known : List Schema) (supply : UidSupply) :
    (unionSchema chosen (known.map some) supply).1.map Schema.blank =
      (mergeAll? known).map Schema.blank := by
  rw [blank_unionSchema, allKnown?_map_some]
  rfl

theorem unionSchema_isSome (chosen : List Uid) (known : List Schema) (supply : UidSupply) :
    (unionSchema chosen (known.map some) supply).1.isSome = (mergeAll? known).isSome := by
  have h := congrArg Option.isSome (blank_unionSchema_of_known chosen known supply)
  rwa [Option.isSome_map, Option.isSome_map] at h

/-- The schema of a union is, up to names and identities, the same for all orders of the inputs for
which it is known. If no input hides inner columns of others that cannot be merged with each other,
it is known for all orders or for none, and else there is an order for which it is not known. -/
theorem union_reordered {known known' : List Schema} (hperm : known.Perm known')
    (chosen chosen' : List Uid) (supply supply' : UidSupply) :
    (∀ s s', (unionSchema chosen (known.map some) supply).1 = some s →
        (unionSchema chosen' (known'.map some) supply').1 = some s' → s.blank = s'.blank) ∧
      (NothingHidden known → ((unionSchema chosen (known.map some) supply).1.isSome ↔
        (unionSchema chosen' (known'.map some) supply').1.isSome)) ∧
      (¬NothingHidden known → ∃ order : List Schema, order.Perm known ∧
        (unionSchema chosen' (order.map some) supply').1 = none) := by
  refine ⟨fun s s' hs hs' => ?_, fun h => ?_, fun h => ?_⟩
  · have hblank := blank_unionSchema_of_known chosen known supply
    have hblank' := blank_unionSchema_of_known chosen' known' supply'
    rw [hs, Option.map_some] at hblank
    rw [hs', Option.map_some] at hblank'
    obtain ⟨r, hr, hsr⟩ := Option.map_eq_some_iff.mp hblank.symm
    obtain ⟨r', hr', hsr'⟩ := Option.map_eq_some_iff.mp hblank'.symm
    rw [← hsr, ← hsr']
    exact (isMerge_of_mergeAll? hr).blank_eq (isMerge_of_mergeAll? hr') fun _ => hperm.mem_iff
  · rw [unionSchema_isSome, unionSchema_isSome]
    exact ⟨h.mergeAll?_isSome hperm, (h.perm hperm).mergeAll?_isSome hperm.symm⟩
  · obtain ⟨order, horder, hnone⟩ := exists_perm_of_hidden h
    refine ⟨order, horder, Option.not_isSome_iff_eq_none.mp ?_⟩
    rw [unionSchema_isSome, hnone]
    exact Bool.false_ne_true

/-- A column of tuples with one inner column of the given type. -/
def tupleOf (t : DataType) : Schema :=
  [⟨some "t", .tuple, some [⟨none, t, none, ⟨0⟩, []⟩], ⟨0⟩, []⟩]

/-- A column of tuples that are not known more closely. -/
def openTuple : Schema := [⟨some "t", .tuple, none, ⟨0⟩, []⟩]

theorem innerAt?_tupleOf {t : DataType} {path : List Nat} {u : Schema}
    (h : (tupleOf t).innerAt? path = some u) :
    path = [] ∨ path = [0] ∧ u = [⟨none, t, none, ⟨0⟩, []⟩] := by
  match path with
  | [] => exact .inl rfl
  | [0] => exact .inr ⟨rfl, (Option.some.inj h).symm⟩
  | 0 :: 0 :: _ => cases h
  | 0 :: (_ + 1) :: _ => cases h
  | (_ + 1) :: _ => cases h

theorem innerAt?_openTuple {path : List Nat} {u : Schema} (h : openTuple.innerAt? path = some u) :
    path = [] := by
  match path with
  | [] => rfl
  | 0 :: _ => cases h
  | (_ + 1) :: _ => cases h

/-- The tuples of numbers that an open column hides can be merged. -/
theorem nothingHidden_numbers : NothingHidden [tupleOf .int, openTuple, tupleOf .double] := by
  intro path ⟨x, _, hnone⟩ s hs t ht u v hu hv
  have hpath : path ≠ [] := by
    rintro rfl
    cases hnone
  have hinner : ∀ s ∈ [tupleOf .int, openTuple, tupleOf .double], ∀ u, s.innerAt? path = some u →
      ∃ t ∈ [DataType.int, .double], u = [⟨none, t, none, ⟨0⟩, []⟩] := by
    intro s hs u hu
    simp only [List.mem_cons, List.not_mem_nil, or_false] at hs
    rcases hs with rfl | rfl | rfl
    · exact ⟨.int, by simp, ((innerAt?_tupleOf hu).resolve_left hpath).2⟩
    · exact absurd (innerAt?_openTuple hu) hpath
    · exact ⟨.double, by simp, ((innerAt?_tupleOf hu).resolve_left hpath).2⟩
  obtain ⟨a, ha, rfl⟩ := hinner s hs u hu
  obtain ⟨b, hb, rfl⟩ := hinner t ht v hv
  clear hu hv
  revert a b
  decide

/-- Tuples of integers, any tuples and tuples of doubles have the same union in another order. -/
theorem tuples_reordered : ∃ s s',
    (unionSchema [] ([tupleOf .int, openTuple, tupleOf .double].map some) {}).1 = some s ∧
      (unionSchema [] ([openTuple, tupleOf .double, tupleOf .int].map some) {}).1 = some s' ∧
      s.blank = s'.blank := by
  have hperm : [tupleOf .int, openTuple, tupleOf .double].Perm
      [openTuple, tupleOf .double, tupleOf .int] := @List.perm_append_comm _ [_] [_, _]
  obtain ⟨hsame, hknown, -⟩ := union_reordered hperm [] [] {} {}
  have hsome :
      (unionSchema [] ([tupleOf .int, openTuple, tupleOf .double].map some) {}).1.isSome := rfl
  obtain ⟨s', hs'⟩ := Option.isSome_iff_exists.mp ((hknown nothingHidden_numbers).mp hsome)
  obtain ⟨s, hs⟩ := Option.isSome_iff_exists.mp hsome
  exact ⟨s, s', hs, hs', hsame s s' hs hs'⟩

/-- An open column hides inner columns that cannot be merged, but only those behind it. -/
theorem not_union_reordered : ¬∀ known known' : List Schema, known.Perm known' →
    ((unionSchema [] (known.map some) {}).1.isSome ↔
      (unionSchema [] (known'.map some) {}).1.isSome) := by
  intro h
  have hsome := (h [tupleOf .int, openTuple, tupleOf .charArray]
    [tupleOf .int, tupleOf .charArray, openTuple] (.cons _ (.swap _ _ _))).mp rfl
  cases hsome

end Operator

end Dataflow
