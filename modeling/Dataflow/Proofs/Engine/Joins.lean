import Dataflow.Proofs.Engine.Distinct
import Dataflow.Proofs.Engine.Fitting

/-!
# Joins and products

The rows of a product are put together from one row of each input (`choices`). Those of an inner
join come from the choices whose keys have no nulls and are all equal to the first one, in the same
order. An outer join of two inputs has these rows and, as asked for, the rows of either side that
have no partner: where the rows of a join come from (`Origin`), which of these origins there are
(`Wanted`) and in which order they stand (`Before`) determine the join (`join_over_cross`).
-/

namespace Dataflow.Relation

variable {α β : Type} {left right : List Keyed} {keyed : List (List Keyed)} {inputs : List Relation}
  {keys : List (List Formula)} {k k' : List Value} {i j : Nat} {type : JoinType}

/-! ## One row of each input -/

/-- One element of each list; the last list varies fastest. -/
def choices : List (List α) → List (List α)
  | [] => [[]]
  | l :: ls => l.flatMap fun a => (choices ls).map (a :: ·)

theorem choices_map (f : α → β) : ∀ ls : List (List α),
    choices (ls.map (List.map f)) = (choices ls).map (List.map f)
  | [] => rfl
  | l :: ls => by
    simp [choices, choices_map f ls, List.flatMap_map, List.map_flatMap, Function.comp_def]

/-- Lists joined one after the other, each to what it fits of the ones before. As long as joining
changes nothing about what fits, the whole choice can be tested at once. -/
theorem foldl_choices {fits : β → α → Bool} {put : β → α → β}
    (hput : ∀ b a, fits (put b a) = fits b) : ∀ (ls : List (List α)) (acc : List β),
    ls.foldl (fun acc l => acc.flatMap fun b => (l.filter (fits b)).map (put b)) acc =
      acc.flatMap fun b => ((choices ls).filter fun c => c.all (fits b)).map fun c => c.foldl put b
  | [], acc => (List.flatMap_singleton' acc).symm
  | l :: ls, acc => by
    rw [List.foldl_cons, foldl_choices hput ls, List.flatMap_assoc]
    refine congrArg acc.flatMap (funext fun b => ?_)
    rw [choices]
    induction l with
    | nil => rfl
    | cons a l ih =>
      have hchoice : (((choices ls).map (a :: ·)).filter fun c => c.all (fits b)) =
          if fits b a then ((choices ls).filter fun c => c.all (fits b)).map (a :: ·) else [] := by
        rw [List.filter_map]
        cases hfits : fits b a <;> simp [Function.comp_def, hfits]
      rw [List.flatMap_cons, List.filter_append, List.map_append, ← ih, hchoice, List.filter_cons]
      cases hfits : fits b a
      · rfl
      · simp only [if_true, List.map_cons, List.flatMap_cons, List.map_map, hput]
        rfl

/-- The row that a choice is put together to. -/
def joined (choice : List Keyed) : Row := (choice.map Prod.snd).flatten

theorem cross_eq (inputs : List Relation) : cross inputs = (choices inputs).map List.flatten := by
  have hfold := @foldl_choices Row Row (fun _ _ => true) (· ++ ·) (fun _ _ => rfl) inputs [[]]
  have hflat : ∀ (c : List Row) (row : Row), c.foldl (· ++ ·) row = row ++ c.flatten := by
    intro c
    induction c with
    | nil => simp
    | cons r c ih =>
      intro row
      rw [List.foldl_cons, ih, List.flatten_cons, List.append_assoc]
  have hall : ∀ c : List Row, (c.all fun _ => true) = true := fun c => by simp
  simpa [cross, hflat, hall] using hfold

/-- Whether no key of a choice has a null and all are equal to the first one. -/
def keysAgree : List Keyed → Bool
  | [] => true
  | first :: rest => (first :: rest).all fun x =>
      !x.1.any Value.isNull && Value.orderRows x.1 first.1 == .eq

theorem keysMatch_eq_true : keysMatch k k' = true ↔
    k.any Value.isNull = false ∧ k'.any Value.isNull = false ∧ Value.orderRows k' k = .eq := by
  rw [Value.orderRows_swap k k', Ordering.swap_eq_eq]
  simp [keysMatch, and_assoc]

/-- With at least two inputs, it is enough to compare every other key with the first one. -/
theorem keysAgree_cons (x : Keyed) {c : List Keyed} (hc : c ≠ []) :
    keysAgree (x :: c) = c.all fun y => keysMatch x.1 y.1 := by
  rw [Bool.eq_iff_iff, keysAgree, List.all_eq_true, List.all_eq_true]
  simp only [List.forall_mem_cons, Bool.and_eq_true, Bool.not_eq_true', beq_iff_eq,
    keysMatch_eq_true, Value.orderRows_self]
  constructor
  · rintro ⟨⟨hx, -⟩, hall⟩ y hy
    exact ⟨hx, hall y hy⟩
  · intro hall
    obtain ⟨y, hy⟩ := List.exists_mem_of_ne_nil c hc
    exact ⟨⟨(hall y hy).1, trivial⟩, fun y hy => (hall y hy).2⟩

theorem length_of_mem_choices : ∀ {ls : List (List α)} {c : List α}, c ∈ choices ls →
    c.length = ls.length
  | [], c, h => by
    rw [List.mem_singleton.mp h]
    rfl
  | l :: ls, c, h => by
    obtain ⟨a, -, h⟩ := List.mem_flatMap.mp h
    obtain ⟨c, hc, rfl⟩ := List.mem_map.mp h
    rw [List.length_cons, List.length_cons, length_of_mem_choices hc]

theorem innerJoin_eq (h : 2 ≤ keyed.length) :
    innerJoin keyed = ((choices keyed).filter keysAgree).map joined := by
  match keyed, h with
  | first :: rest, h =>
    have hfold := @foldl_choices Keyed Keyed (fun x y => keysMatch x.1 y.1)
      (fun x y => (x.1, x.2 ++ y.2)) (fun _ _ => rfl) rest first
    have hput : ∀ (c : List Keyed) (x : Keyed),
        c.foldl (fun x y : Keyed => (x.1, x.2 ++ y.2)) x = (x.1, joined (x :: c)) := by
      intro c
      induction c with
      | nil => simp [joined]
      | cons y c ih =>
        intro x
        rw [List.foldl_cons, ih]
        simp [joined]
    simp only [innerJoin]
    rw [hfold, List.map_flatMap, choices, List.filter_flatMap, List.map_flatMap]
    refine congrArg first.flatMap (funext fun x => ?_)
    rw [List.filter_map, List.map_map, List.map_map]
    have hagree : ∀ c ∈ choices rest, (c.all fun y => keysMatch x.1 y.1) = keysAgree (x :: c) := by
      intro c hc
      refine (keysAgree_cons x fun hnil => ?_).symm
      have hlength := length_of_mem_choices hc
      simp [hnil] at hlength
      simp at h
      omega
    rw [List.filter_congr hagree]
    exact List.map_congr_left fun c _ => congrArg Prod.snd (hput c x)

/-! ## Rows of two inputs -/

/-- Where a row of a join of two inputs comes from: from a row of each, or from a row of one of them
beside nulls. Rows are told by their places. -/
inductive Origin where
  | both (i j : Nat)
  | leftOnly (i : Nat)
  | rightOnly (j : Nat)
deriving DecidableEq, Repr

namespace Origin

def isBoth : Origin → Bool
  | both _ _ => true
  | _ => false

/-- The order of the rows of a join: by left row, then by right row. Right rows without partner come
behind all others. -/
def Before : Origin → Origin → Prop
  | both i j, both i' j' => i < i' ∨ i = i' ∧ j < j'
  | both i _, leftOnly i' | leftOnly i, both i' _ | leftOnly i, leftOnly i' => i < i'
  | rightOnly j, rightOnly j' => j < j'
  | both _ _, rightOnly _ | leftOnly _, rightOnly _ => True
  | rightOnly _, both _ _ | rightOnly _, leftOnly _ => False

/-- The rows at the places go together. -/
def Partners (left right : List Keyed) (i j : Nat) : Prop :=
  ∃ x y, left[i]? = some x ∧ right[j]? = some y ∧ keysAgree [x, y] = true

/-- A join has the rows that go together, and those without partner on the sides that it keeps. -/
def Wanted (keepLeft keepRight : Bool) (left right : List Keyed) : Origin → Prop
  | both i j => Partners left right i j
  | leftOnly i => keepLeft = true ∧ i < left.length ∧ ∀ j, ¬Partners left right i j
  | rightOnly j => keepRight = true ∧ j < right.length ∧ ∀ i, ¬Partners left right i j

/-- The row at a place. -/
def rowAt (rel : List Keyed) (i : Nat) : Row := (rel[i]?.map Prod.snd).getD []

/-- The row of an origin, with null rows of the given widths. -/
def row (left right : List Keyed) (leftWidth rightWidth : Nat) : Origin → Row
  | both i j => rowAt left i ++ rowAt right j
  | leftOnly i => rowAt left i ++ nulls rightWidth
  | rightOnly j => nulls leftWidth ++ rowAt right j

variable {keepLeft keepRight : Bool} {leftWidth rightWidth : Nat}

/-- The origins that begin with a left row. -/
def ofLeft (keepLeft : Bool) (right : List Keyed) (x : Keyed) (i : Nat) : List Origin :=
  if hasPartner x.1 right then
    (right.zipIdx.filter fun y => keysMatch x.1 y.1.1).map fun y => both i y.2
  else if keepLeft then [leftOnly i] else []

/-- The origins of right rows without partner. -/
def lonely (left right : List Keyed) : List Origin :=
  (right.zipIdx.filter fun y => !left.any fun x => keysMatch x.1 y.1.1).map fun y => rightOnly y.2

/-- The origins of all rows of a join. -/
def all (keepLeft keepRight : Bool) (left right : List Keyed) : List Origin :=
  (left.zipIdx.flatMap fun x => ofLeft keepLeft right x.1 x.2) ++
    if keepRight then lonely left right else []

theorem rowAt_of_mem {rel : List Keyed} {x : Keyed × Nat} (h : x ∈ rel.zipIdx) :
    rowAt rel x.2 = x.1.2 := by
  rw [rowAt, List.mem_zipIdx_iff_getElem?.mp h]
  rfl

/-- Rows that are chosen by what they are, with their places. -/
theorem map_filter_zipIdx {γ : Type} {rel : List Keyed} {test : Keyed → Bool} {f : Keyed → γ}
    {g : Keyed × Nat → γ} (h : ∀ x ∈ rel.zipIdx, g x = f x.1) :
    (rel.zipIdx.filter fun x => test x.1).map g = (rel.filter test).map f := by
  have hfst : rel.filter test = (rel.zipIdx.filter fun x => test x.1).map Prod.fst := by
    conv_lhs => rw [← List.zipIdx_map_fst 0 rel, List.filter_map]
    rfl
  rw [hfst, List.map_map]
  exact List.map_congr_left fun x hx => h x (List.mem_of_mem_filter hx)

theorem outerJoin_eq : outerJoin keepLeft keepRight left right leftWidth rightWidth =
    (all keepLeft keepRight left right).map (row left right leftWidth rightWidth) := by
  rw [outerJoin, all, List.map_append, List.map_flatMap]
  refine congrArg₂ (· ++ ·) ?_ ?_
  · conv_lhs => rw [← List.zipIdx_map_fst 0 left, List.flatMap_map]
    refine List.flatMap_congr fun ⟨⟨k, l⟩, i⟩ hx => ?_
    have hx : rowAt left i = l := rowAt_of_mem hx
    dsimp only
    rw [ofLeft]
    by_cases hpartner : hasPartner k right = true
    · rw [if_pos hpartner, if_pos hpartner, List.map_map]
      exact (map_filter_zipIdx fun y hy => by simp [row, hx, rowAt_of_mem hy]).symm
    · rw [if_neg hpartner, if_neg hpartner]
      cases keepLeft <;> simp [row, hx]
  · cases keepRight with
    | false => rfl
    | true =>
      rw [if_pos rfl, if_pos rfl, lonely, List.map_map]
      exact (map_filter_zipIdx fun y hy => by simp [row, rowAt_of_mem hy]).symm

/-! ### Which origins there are -/

theorem partners_iff : Partners left right i j ↔
    ∃ x y, left[i]? = some x ∧ right[j]? = some y ∧ keysMatch x.1 y.1 = true := by
  simp [Partners, keysAgree_cons]

theorem hasPartner_eq_true {x : Keyed} : hasPartner x.1 right = true ↔
    ∃ (j : Nat) (y : Keyed), right[j]? = some y ∧ keysMatch x.1 y.1 = true := by
  rw [hasPartner, List.any_eq_true]
  constructor
  · rintro ⟨y, hy, hmatch⟩
    obtain ⟨j, hj⟩ := List.mem_iff_getElem?.mp hy
    exact ⟨j, y, hj, hmatch⟩
  · rintro ⟨j, y, hj, hmatch⟩
    exact ⟨y, List.mem_of_getElem? hj, hmatch⟩

theorem mem_ofLeft {x : Keyed} {o : Origin} : o ∈ ofLeft keepLeft right x i ↔
    (∃ (j : Nat) (y : Keyed), o = both i j ∧ right[j]? = some y ∧ keysMatch x.1 y.1 = true) ∨
      o = leftOnly i ∧ keepLeft = true ∧ hasPartner x.1 right = false := by
  rw [ofLeft]
  by_cases hpartner : hasPartner x.1 right = true
  · rw [if_pos hpartner, List.mem_map]
    simp only [List.mem_filter, List.mem_zipIdx_iff_getElem?, hpartner, Bool.true_eq_false,
      and_false, or_false]
    constructor
    · rintro ⟨⟨y, j⟩, ⟨hj, hmatch⟩, rfl⟩
      exact ⟨j, y, rfl, hj, hmatch⟩
    · rintro ⟨j, y, rfl, hj, hmatch⟩
      exact ⟨⟨y, j⟩, ⟨hj, hmatch⟩, rfl⟩
  · have hnone : ¬∃ (j : Nat) (y : Keyed), o = both i j ∧ right[j]? = some y ∧
        keysMatch x.1 y.1 = true := by
      rintro ⟨j, y, -, hy⟩
      exact hpartner (hasPartner_eq_true.mpr ⟨j, y, hy⟩)
    rw [if_neg hpartner, or_iff_right hnone]
    cases keepLeft <;> simp [hpartner]

theorem mem_ofLefts {o : Origin} :
    o ∈ (left.zipIdx.flatMap fun x => ofLeft keepLeft right x.1 x.2) ↔
      ∃ (i : Nat) (x : Keyed), left[i]? = some x ∧ o ∈ ofLeft keepLeft right x i := by
  rw [List.mem_flatMap]
  constructor
  · rintro ⟨⟨x, i⟩, hx, ho⟩
    exact ⟨i, x, List.mem_zipIdx_iff_getElem?.mp hx, ho⟩
  · rintro ⟨i, x, hx, ho⟩
    exact ⟨⟨x, i⟩, List.mem_zipIdx_iff_getElem?.mpr hx, ho⟩

theorem mem_lonely {o : Origin} : o ∈ lonely left right ↔ ∃ (j : Nat) (y : Keyed),
    o = rightOnly j ∧ right[j]? = some y ∧ ∀ x ∈ left, keysMatch x.1 y.1 = false := by
  simp only [lonely, List.mem_map, List.mem_filter, List.mem_zipIdx_iff_getElem?,
    Bool.not_eq_true', List.any_eq_false, Bool.not_eq_true]
  constructor
  · rintro ⟨⟨y, j⟩, ⟨hj, hnone⟩, rfl⟩
    exact ⟨j, y, rfl, hj, hnone⟩
  · rintro ⟨j, y, rfl, hj, hnone⟩
    exact ⟨⟨y, j⟩, ⟨hj, hnone⟩, rfl⟩

/-- Behind all left rows there are only right rows. -/
theorem exists_of_mem_lonely {o : Origin}
    (h : o ∈ if keepRight then lonely left right else []) : ∃ j, o = rightOnly j := by
  cases keepRight with
  | false => exact absurd h List.not_mem_nil
  | true =>
    obtain ⟨j, _, rfl, -⟩ := mem_lonely.mp h
    exact ⟨j, rfl⟩

theorem mem_all {o : Origin} :
    o ∈ all keepLeft keepRight left right ↔ Wanted keepLeft keepRight left right o := by
  rw [all, List.mem_append, mem_ofLefts]
  cases o with
  | both i j =>
    have hno : both i j ∉ if keepRight then lonely left right else [] :=
      fun h => by simpa using exists_of_mem_lonely h
    rw [or_iff_left hno, Wanted, partners_iff]
    simp only [mem_ofLeft]
    grind
  | leftOnly i =>
    have hno : leftOnly i ∉ if keepRight then lonely left right else [] :=
      fun h => by simpa using exists_of_mem_lonely h
    rw [or_iff_left hno, Wanted]
    simp only [mem_ofLeft, partners_iff]
    constructor
    · rintro ⟨i', x, hx, ⟨j, y, h, -⟩ | ⟨h, hkeep, hpartner⟩⟩
      · cases h
      cases h
      refine ⟨hkeep, (List.getElem?_eq_some_iff.mp hx).1, fun j ⟨x', y, hx', hy, hmatch⟩ => ?_⟩
      obtain rfl : x = x' := Option.some.inj (hx.symm.trans hx')
      simp [hasPartner_eq_true.mpr ⟨j, y, hy, hmatch⟩] at hpartner
    · rintro ⟨hkeep, hi, hnone⟩
      refine ⟨i, left[i], List.getElem?_eq_getElem hi, .inr ⟨rfl, hkeep, ?_⟩⟩
      by_contra hpartner
      obtain ⟨j, y, hy, hmatch⟩ := hasPartner_eq_true.mp (Bool.not_eq_false _ ▸ hpartner)
      exact hnone j ⟨left[i], y, List.getElem?_eq_getElem hi, hy, hmatch⟩
  | rightOnly j =>
    have hno : ¬∃ (i : Nat) (x : Keyed), left[i]? = some x ∧
        rightOnly j ∈ ofLeft keepLeft right x i := by
      simp [mem_ofLeft]
    rw [or_iff_right hno, Wanted]
    cases keepRight with
    | false => simp
    | true =>
      rw [if_pos rfl, mem_lonely]
      simp only [partners_iff, true_and]
      constructor
      · rintro ⟨j', y, h, hy, hnone⟩
        cases h
        refine ⟨(List.getElem?_eq_some_iff.mp hy).1, fun i ⟨x, y', hx, hy', hmatch⟩ => ?_⟩
        obtain rfl : y = y' := Option.some.inj (hy.symm.trans hy')
        simp [hnone x (List.mem_of_getElem? hx)] at hmatch
      · rintro ⟨hj, hnone⟩
        refine ⟨j, right[j], rfl, List.getElem?_eq_getElem hj, fun x hx => ?_⟩
        obtain ⟨i, hi⟩ := List.mem_iff_getElem?.mp hx
        by_contra hmatch
        exact hnone i ⟨x, right[j], hi, List.getElem?_eq_getElem hj, by simpa using hmatch⟩

theorem all_pairwise : (all keepLeft keepRight left right).Pairwise Before := by
  have hlonely : (if keepRight then lonely left right else []).Pairwise Before := by
    cases keepRight with
    | false => exact .nil
    | true => exact List.pairwise_map.mpr ((Lists.pairwise_zipIdx right).filter _)
  refine List.pairwise_append.mpr ⟨List.pairwise_flatMap.mpr ⟨fun x hx => ?_, ?_⟩, hlonely, ?_⟩
  · rw [ofLeft]
    split
    · exact List.pairwise_map.mpr (((Lists.pairwise_zipIdx right).filter _).imp fun h =>
        .inr ⟨rfl, h⟩)
    · cases keepLeft <;> simp
  · refine (Lists.pairwise_zipIdx left).imp fun {x y} hlt o ho o' ho' => ?_
    rcases mem_ofLeft.mp ho with ⟨j, _, rfl, -⟩ | ⟨rfl, -⟩ <;>
      rcases mem_ofLeft.mp ho' with ⟨j', _, rfl, -⟩ | ⟨rfl, -⟩
    · exact .inl hlt
    · exact hlt
    · exact hlt
    · exact hlt
  · intro o ho o' ho'
    obtain ⟨j, rfl⟩ := exists_of_mem_lonely ho'
    obtain ⟨i, x, -, ho⟩ := mem_ofLefts.mp ho
    rcases mem_ofLeft.mp ho with ⟨i, _, rfl, -⟩ | ⟨rfl, -⟩ <;> exact trivial

theorem filter_isBoth : (all keepLeft keepRight left right).filter isBoth =
    all false false left right := by
  have hright : (if keepRight then lonely left right else []).filter isBoth = [] := by
    refine List.filter_eq_nil_iff.mpr fun o ho => ?_
    obtain ⟨j, rfl⟩ := exists_of_mem_lonely ho
    exact Bool.false_ne_true
  rw [all, all, List.filter_append, hright, List.filter_flatMap]
  refine congrArg (· ++ []) (List.flatMap_congr fun x hx => ?_)
  rw [ofLeft, ofLeft]
  split
  · refine List.filter_eq_self.mpr fun o ho => ?_
    obtain ⟨y, -, rfl⟩ := List.mem_map.mp ho
    rfl
  · cases keepLeft <;> rfl

end Origin

theorem innerJoin_pair {leftWidth rightWidth : Nat} :
    innerJoin [left, right] = outerJoin false false left right leftWidth rightWidth := by
  have hnone : ∀ x : Keyed, hasPartner x.1 right = false →
      right.filter (fun y => keysMatch x.1 y.1) = [] := by
    intro x hpartner
    rw [List.filter_eq_nil_iff]
    intro y hy hmatch
    have hany : hasPartner x.1 right = true := List.any_eq_true.mpr ⟨y, hy, hmatch⟩
    exact Bool.false_ne_true (hpartner.symm.trans hany)
  simp only [innerJoin, outerJoin, List.foldl_cons, List.foldl_nil, List.map_flatMap, List.map_map,
    Bool.false_eq_true, if_false, List.append_nil]
  refine List.flatMap_congr fun x _ => ?_
  by_cases hpartner : hasPartner x.1 right = true
  · rw [if_pos hpartner]
    rfl
  · rw [if_neg hpartner]
    exact congrArg (List.map _) (hnone x (by simpa using hpartner))

/-! ## Joins as parts of products -/

/-- Whether a join keeps the left rows without partner. -/
def keepsLeft (type : JoinType) : Bool := type == .left || type == .full

/-- Whether a join keeps the right rows without partner. -/
def keepsRight (type : JoinType) : Bool := type == .right || type == .full

theorem join_pair {widths : List (Option Nat)} (hlen : keys.length = inputs.length)
    (hkeyed : allWithKeys keys inputs = .ok [left, right]) :
    join type keys inputs widths = .ok (outerJoin (keepsLeft type) (keepsRight type) left right
      (widthOf (widths[0]?).join left) (widthOf (widths[1]?).join right)) := by
  rw [join, if_neg (not_not_intro hlen), hkeyed]
  cases type with
  | inner => exact congrArg Except.ok innerJoin_pair
  | _ => rfl

/-- Rows stay in their places when they get their keys. -/
theorem rows_of_allWithKeys {m : Nat} : ∀ {keys : List (List Formula)} {inputs : List Relation}
    {n : Nat} {keyed : List (List Keyed)}, keys.length = inputs.length →
      ((keys.zip inputs).zipIdx n).mapM (fun ((ks, rel), i) => withKeys ks i m rel) = .ok keyed →
        keyed.map (List.map Prod.snd) = inputs
  | [], [], n, keyed, _, h => by
    obtain rfl : [] = keyed := Except.ok.inj h
    rfl
  | ks :: keys, rel :: inputs, n, keyed, hlen, h => by
    rw [List.zip_cons_cons, List.zipIdx_cons, List.mapM_cons] at h
    obtain ⟨first, hfirst, h⟩ := Pass.except_bind_eq_ok.mp h
    obtain ⟨others, hothers, h⟩ := Pass.except_bind_eq_ok.mp h
    obtain rfl := Except.ok.inj h
    rw [List.map_cons, map_snd_of_keyed hfirst,
      rows_of_allWithKeys (by simpa using hlen) hothers]

/-- The row of an origin beside nulls as wide as a join makes them. -/
def rowOf (widths : List (Option Nat)) (left right : List Keyed) : Origin → Row :=
  Origin.row left right (widthOf (widths[0]?).join left) (widthOf (widths[1]?).join right)

/-- The rows of an inner join are those of the product whose keys are free of nulls and equal to the
first one, in the order of the product. Any join of two inputs has these and, on the sides that it
keeps, the rows without partner beside nulls: a left row at its own place, the right ones in their
order behind all others. -/
theorem join_over_cross {widths : List (Option Nat)} (hn : 2 ≤ inputs.length)
    (hlen : keys.length = inputs.length) (hkeyed : allWithKeys keys inputs = .ok keyed) :
    keyed.map (List.map Prod.snd) = inputs ∧
      cross inputs = (choices keyed).map joined ∧
      join .inner keys inputs widths = .ok (((choices keyed).filter keysAgree).map joined) ∧
      (inputs.length = 2 → ∃ left right, keyed = [left, right] ∧
        ∀ type, ∃ origins : List Origin, origins.Pairwise Origin.Before ∧
          (∀ o, o ∈ origins ↔ Origin.Wanted (keepsLeft type) (keepsRight type) left right o) ∧
          join type keys inputs widths = .ok (origins.map (rowOf widths left right)) ∧
          join .inner keys inputs widths =
            .ok ((origins.filter Origin.isBoth).map (rowOf widths left right))) := by
  have hrows : keyed.map (List.map Prod.snd) = inputs := rows_of_allWithKeys hlen hkeyed
  have hlength : keyed.length = inputs.length := by rw [← hrows, List.length_map]
  refine ⟨hrows, ?_, ?_, fun htwo => ?_⟩
  · rw [← hrows, cross_eq, choices_map, List.map_map]
    rfl
  · rw [join, if_neg (not_not_intro hlen), hkeyed]
    exact congrArg Except.ok (innerJoin_eq (by omega))
  · obtain ⟨left, right, rfl⟩ := List.length_eq_two.mp (hlength.trans htwo)
    refine ⟨left, right, rfl, fun type => ⟨Origin.all (keepsLeft type) (keepsRight type) left right,
      Origin.all_pairwise, fun o => Origin.mem_all, ?_, ?_⟩⟩
    · rw [join_pair hlen hkeyed, Origin.outerJoin_eq]
      rfl
    · rw [join_pair hlen hkeyed, Origin.outerJoin_eq, Origin.filter_isBoth]
      rfl

/-- Joins of two inputs by their first columns. -/
def byFirstColumns : List (List Formula) :=
  [[⟨(Graph.empty.add (.column 0 0 none)).2⟩], [⟨(Graph.empty.add (.column 1 0 none)).2⟩]]

/-- Orders by customer: two have the same, one has none. -/
def orders : List Keyed :=
  [([.int 1], [.int 1, .charArray "a"]), ([.null], [.null, .charArray "b"]),
    ([.int 2], [.int 2, .charArray "c"]), ([.int 1], [.int 1, .charArray "d"])]

/-- Customers: one twice, one without orders, one without number. -/
def customers : List Keyed :=
  [([.long 1], [.long 1, .boolean true]), ([.int 3], [.int 3, .boolean true]),
    ([.int 1], [.int 1, .boolean false]), ([.null], [.null, .null])]

theorem orders_joined :
    allWithKeys byFirstColumns [orders.map Prod.snd, customers.map Prod.snd] =
        .ok [orders, customers] ∧
      join .inner byFirstColumns [orders.map Prod.snd, customers.map Prod.snd] [] =
        .ok (((choices [orders, customers]).filter keysAgree).map joined) ∧
      ∃ origins : List Origin, origins.Pairwise Origin.Before ∧
        join .full byFirstColumns [orders.map Prod.snd, customers.map Prod.snd] [] =
          .ok (origins.map (rowOf [] orders customers)) ∧
        .rightOnly 3 ∈ origins := by
  have hkeyed : allWithKeys byFirstColumns [orders.map Prod.snd, customers.map Prod.snd] =
      .ok [orders, customers] := rfl
  obtain ⟨-, -, hinner, htwo⟩ := @join_over_cross _ _ _ [] (by simp) rfl hkeyed
  obtain ⟨left, right, hpair, hall⟩ := htwo rfl
  obtain ⟨rfl, rfl⟩ : orders = left ∧ customers = right := by simpa using hpair
  obtain ⟨origins, hbefore, hwanted, hfull, -⟩ := hall .full
  refine ⟨hkeyed, hinner, origins, hbefore, hfull, (hwanted _).mpr ⟨rfl, by decide, ?_⟩⟩
  rintro i ⟨x, y, -, hy, hmatch⟩
  obtain rfl : customers[3] = y := Option.some.inj hy
  simp [keysAgree, customers, Value.isNull] at hmatch

end Dataflow.Relation
