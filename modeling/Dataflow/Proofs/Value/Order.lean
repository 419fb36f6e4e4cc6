import Dataflow.Proofs.Number.Rounding
import Dataflow.Value.Basic
import Mathlib.Data.List.Basic

/-!
# The order of values

The order of values is reflexive, and turning a comparison round turns its result round. It is not
always transitive: whole numbers are compared exactly with each other and as 64-bit numbers with
fractions, so that two neighbouring whole numbers beyond `2 ^ 53` can both equal the fraction to
which they are rounded. As long as no such fraction is among the values that are compared, the order
is a total preorder (`order_preorders`), and that of rows is the lexicographic one above it.
-/

namespace Dataflow

/-! ## Comparisons that fit together -/

/-- The results of comparing `a` with `b`, `b` with `c`, and `a` with `c` are such as there are in a
total preorder. -/
structure Concordant (ab bc ac : Ordering) : Prop where
  left : ab = .eq → ac = bc
  right : bc = .eq → ac = ab
  same : ab = bc → ac = ab

namespace Concordant

variable {ab bc ac ab' bc' ac' : Ordering}

theorem isLE_trans (h : Concordant ab bc ac) (hab : ab.isLE) (hbc : bc.isLE) : ac.isLE := by
  obtain ⟨hl, hr, hs⟩ := h
  cases ab <;> cases bc <;> simp_all

/-- Where the first comparisons leave it open, the second ones decide. -/
theorem append (h : Concordant ab bc ac)
    (h' : ab = .eq → bc = .eq → Concordant ab' bc' ac') :
    Concordant (ab.then ab') (bc.then bc') (ac.then ac') := by
  obtain ⟨hl, hr, hs⟩ := h
  cases ab <;> cases bc
  case eq.eq =>
    obtain rfl : ac = .eq := hl rfl
    exact h' rfl rfl
  all_goals
    cases bc' <;> constructor <;> simp_all [Ordering.then]

theorem of_compare {α : Type} {cmp : α → α → Ordering} [Std.TransCmp cmp] (a b c : α) :
    Concordant (cmp a b) (cmp b c) (cmp a c) where
  left h := Std.TransCmp.congr_left h
  right h := (Std.TransCmp.congr_right h).symm
  same h := by
    cases hab : cmp a b with
    | lt => exact Std.TransCmp.lt_trans hab (h ▸ hab)
    | eq => exact Std.TransCmp.eq_trans hab (h ▸ hab)
    | gt => exact Std.TransCmp.gt_trans hab (h ▸ hab)

end Concordant

namespace Value

variable {a b c : Value}

/-! ## Leaves -/

mutual

/-- The values in a value that are not made of others. -/
def leaves : Value → List Value
  | .map entries => entriesLeaves entries
  | .tuple items => rowLeaves items
  | .bag rows => bagLeaves rows
  | v => [v]
termination_by structural v => v

def entriesLeaves : List (String × Value) → List Value
  | [] => []
  | (_, v) :: rest => leaves v ++ entriesLeaves rest
termination_by structural es => es

/-- The leaves of all cells of a row. -/
def rowLeaves : List Value → List Value
  | [] => []
  | v :: rest => leaves v ++ rowLeaves rest
termination_by structural vs => vs

def bagLeaves : List (List Value) → List Value
  | [] => []
  | row :: rest => rowLeaves row ++ bagLeaves rest
termination_by structural rows => rows

end

theorem rowLeaves_append : ∀ r s : List Value, rowLeaves (r ++ s) = rowLeaves r ++ rowLeaves s
  | [], _ => rfl
  | v :: r, s => by simp [rowLeaves, rowLeaves_append r s]

/-- The value of a number that is not a whole one. -/
def fraction? (v : Value) : Option Double := if v.asInt?.isSome then none else v.asDouble?

/-- No fraction is what two different whole numbers are rounded to. -/
def Sharp (leaves : List Value) : Prop :=
  ∀ x ∈ leaves.filterMap fraction?, ∀ i ∈ leaves.filterMap asInt?, ∀ j ∈ leaves.filterMap asInt?,
    .ofInt i = x → .ofInt j = x → i = j

/-- No fraction in the values is what two different whole numbers in them are rounded to. -/
def Unblurred (values : List Value) : Prop := Sharp (rowLeaves values)

instance decidableUnblurred (values : List Value) : Decidable (Unblurred values) :=
  inferInstanceAs (Decidable (∀ x ∈ (rowLeaves values).filterMap fraction?,
    ∀ i ∈ (rowLeaves values).filterMap asInt?, ∀ j ∈ (rowLeaves values).filterMap asInt?,
      .ofInt i = x → .ofInt j = x → i = j))

/-! ## Kinds -/

/-- Values of different kinds are told apart by their kinds. -/
theorem order_eq_then (a b : Value) :
    order a b = (compare a.kindRank b.kindRank).then (order a b) := by
  by_cases h : a.kindRank = b.kindRank
  · rw [h, compare_eq_iff_eq.mpr rfl]
    rfl
  · cases a <;> cases b <;> first | exact absurd rfl h | rfl

theorem concordant_of_kinds
    (h : a.kindRank = b.kindRank → b.kindRank = c.kindRank →
      Concordant (order a b) (order b c) (order a c)) :
    Concordant (order a b) (order b c) (order a c) := by
  rw [order_eq_then a b, order_eq_then b c, order_eq_then a c]
  refine (Concordant.of_compare a.kindRank b.kindRank c.kindRank).append fun hab hbc => ?_
  exact h (Std.LawfulEqCmp.eq_of_compare hab) (Std.LawfulEqCmp.eq_of_compare hbc)

/-! ## Numbers -/

/-- A number as a 64-bit one. -/
def rounded (v : Value) : Double := v.asDouble?.getD default

/-- Whole numbers are compared exactly; other values are left equal. -/
def orderWhole (a b : Value) : Ordering :=
  match a.asInt?, b.asInt? with
  | some i, some j => compare i j
  | _, _ => .eq

theorem rounded_of_asInt? {i : Int} (h : a.asInt? = some i) : a.rounded = .ofInt i := by
  cases a <;> simp_all [asInt?, rounded, asDouble?]

theorem fraction?_of_number (ha : a.kindRank = 2) (h : a.asInt? = none) :
    a.fraction? = some a.rounded := by
  cases a <;> simp_all [kindRank, asInt?, fraction?, rounded, asDouble?]

/-- A whole number that is not larger is not rounded to a larger one, so numbers may be compared by
what they are rounded to first. -/
theorem order_of_numbers (ha : a.kindRank = 2) (hb : b.kindRank = 2) :
    order a b = (a.rounded.order b.rounded).then (orderWhole a b) := by
  have hsimple : order a b = orderSimple a b := by
    cases a <;> cases b <;> first | rfl | simp [kindRank] at ha hb
  rw [hsimple]
  cases hia : a.asInt? with
  | some i =>
    cases hjb : b.asInt? with
    | some j =>
      simp only [orderSimple, orderWhole, hia, hjb, rounded_of_asInt? hia, rounded_of_asInt? hjb,
        Binary.order]
      rcases lt_trichotomy (Binary.rank (.ofInt i : Double)) (Binary.rank (.ofInt j : Double)) with
        hlt | heq | hgt
      · have hij : i < j := by
          by_contra hle
          have := Binary.rank_ofInt_mono (not_lt.mp hle)
          omega
        rw [compare_lt_iff_lt.mpr hlt, compare_lt_iff_lt.mpr hij]
        rfl
      · rw [heq, compare_eq_iff_eq.mpr rfl]
        rfl
      · have hij : j < i := by
          by_contra hle
          have := Binary.rank_ofInt_mono (not_lt.mp hle)
          omega
        rw [compare_gt_iff_gt.mpr hgt, compare_gt_iff_gt.mpr hij]
        rfl
    | none =>
      cases a <;> cases b <;> simp_all [kindRank, asInt?, orderSimple, orderWhole, rounded,
        asDouble?]
  | none =>
    cases a <;> cases b <;> simp_all [kindRank, asInt?, orderSimple, orderWhole, rounded, asDouble?]

/-- Among numbers that are rounded to the same, either all are whole, or the whole ones are
equal. -/
theorem concordant_of_numbers {leaves : List Value} (hsharp : Sharp leaves) (ha : a.kindRank = 2)
    (hb : b.kindRank = 2) (hc : c.kindRank = 2) (hleaves : ∀ v ∈ [a, b, c], v ∈ leaves) :
    Concordant (order a b) (order b c) (order a c) := by
  rw [order_of_numbers ha hb, order_of_numbers hb hc, order_of_numbers ha hc]
  refine (Concordant.of_compare a.rounded b.rounded c.rounded).append fun hab hbc => ?_
  have hab := Std.LawfulEqCmp.eq_of_compare hab
  have hbc := Std.LawfulEqCmp.eq_of_compare hbc
  have hrounded : ∀ v ∈ [a, b, c], v.rounded = c.rounded := by simp [hab, hbc]
  have hnumber : ∀ v ∈ [a, b, c], v.kindRank = 2 := by simp [ha, hb, hc]
  by_cases hall : ∀ v ∈ [a, b, c], v.asInt?.isSome
  · simp only [List.mem_cons, List.not_mem_nil, or_false, forall_eq_or_imp, forall_eq,
      Option.isSome_iff_exists] at hall
    obtain ⟨⟨i, hi⟩, ⟨j, hj⟩, ⟨k, hk⟩⟩ := hall
    simp only [orderWhole, hi, hj, hk]
    exact .of_compare i j k
  · obtain ⟨x, hx, hfraction⟩ : ∃ x ∈ [a, b, c], x.asInt? = none := by
      simpa only [not_forall, exists_prop, Option.not_isSome_iff_eq_none] using hall
    have hmem : c.rounded ∈ leaves.filterMap fraction? := List.mem_filterMap.mpr
      ⟨x, hleaves x hx, hrounded x hx ▸ fraction?_of_number (hnumber x hx) hfraction⟩
    have heq : ∀ u ∈ [a, b, c], ∀ v ∈ [a, b, c], orderWhole u v = .eq := by
      intro u hu v hv
      unfold orderWhole
      split
      · next i j hi hj =>
        have hui := (rounded_of_asInt? hi).symm.trans (hrounded u hu)
        have hvj := (rounded_of_asInt? hj).symm.trans (hrounded v hv)
        exact compare_eq_iff_eq.mpr (hsharp _ hmem i
          (List.mem_filterMap.mpr ⟨u, hleaves u hu, hi⟩) j
          (List.mem_filterMap.mpr ⟨v, hleaves v hv, hj⟩) hui hvj)
      · rfl
    rw [heq a (by simp) b (by simp), heq b (by simp) c (by simp), heq a (by simp) c (by simp)]
    exact ⟨fun _ => rfl, fun _ => rfl, fun _ => rfl⟩

/-! ## Lists -/

theorem orderBytes_eq : ∀ as bs : List UInt8, orderBytes as bs = List.compareLex compare as bs
  | [], [] => rfl
  | [], _ :: _ => rfl
  | _ :: _, [] => rfl
  | a :: as, b :: bs => by
    rw [orderBytes, List.compareLex_cons_cons, orderBytes_eq as bs]

/-- Rows are compared lexicographically. -/
theorem orderRows_eq : ∀ as bs : List Value, orderRows as bs = List.compareLex order as bs
  | [], [] => rfl
  | [], _ :: _ => rfl
  | _ :: _, [] => rfl
  | a :: as, b :: bs => by
    rw [orderRows, List.compareLex_cons_cons, orderRows_eq as bs]

/-! ## Reflexivity -/

mutual

theorem order_self : ∀ a : Value, order a a = .eq
  | .null => rfl
  | .boolean b => Std.compare_self
  | .int i => by simp [order, orderSimple, asInt?]
  | .long i => by simp [order, orderSimple, asInt?]
  | .float x => by simp [order, orderSimple, asInt?, asDouble?, Binary.order]
  | .double x => by simp [order, orderSimple, asInt?, asDouble?, Binary.order]
  | .charArray s => by simp [order]
  | .byteArray bytes => by
    rw [order, orderBytes_eq]
    exact Std.ReflCmp.compare_self
  | .map entries => by rw [order, orderEntries_self entries]
  | .tuple items => by rw [order, orderRows_self items]
  | .bag rows => by rw [order, orderBags_self rows]
termination_by structural a => a

theorem orderEntries_self : ∀ es : List (String × Value), orderEntries es es = .eq
  | [] => rfl
  | (k, v) :: rest => by simp [orderEntries, order_self v, orderEntries_self rest]
termination_by structural es => es

theorem orderRows_self : ∀ vs : List Value, orderRows vs vs = .eq
  | [] => rfl
  | v :: rest => by simp [orderRows, order_self v, orderRows_self rest]
termination_by structural vs => vs

theorem orderBags_self : ∀ rows : List (List Value), orderBags rows rows = .eq
  | [] => rfl
  | row :: rest => by simp [orderBags, orderRows_self row, orderBags_self rest]
termination_by structural rows => rows

end

/-! ## Turning comparisons round -/

/-- Values of different kinds, and numbers, are compared by keys of their own. -/
theorem order_swap_of_kinds
    (h : a.kindRank = b.kindRank → order b a = (order a b).swap) :
    order b a = (order a b).swap := by
  rw [order_eq_then a b, order_eq_then b a, Ordering.swap_then, ← Std.OrientedCmp.eq_swap]
  by_cases hk : a.kindRank = b.kindRank
  · rw [← h hk]
  · cases hcmp : compare b.kindRank a.kindRank with
    | eq => exact absurd (Std.LawfulEqCmp.eq_of_compare hcmp).symm hk
    | lt => rfl
    | gt => rfl

theorem orderWhole_swap (a b : Value) : orderWhole b a = (orderWhole a b).swap := by
  unfold orderWhole
  cases a.asInt? <;> cases b.asInt? <;>
    first | rfl | exact Std.OrientedOrd.eq_swap

theorem order_swap_of_numbers (ha : a.kindRank = 2) (hb : b.kindRank = 2) :
    order b a = (order a b).swap := by
  rw [order_of_numbers ha hb, order_of_numbers hb ha, Ordering.swap_then, orderWhole_swap a b,
    show Binary.order _ _ = _ from Std.OrientedCmp.eq_swap]

mutual

theorem order_swap : ∀ a b : Value, order b a = (order a b).swap
  | .null, b => order_swap_of_kinds fun _ => by cases b <;> rfl
  | .boolean x, b => order_swap_of_kinds fun h => by
    cases b <;> exact Std.OrientedOrd.eq_swap
  | .int i, b => order_swap_of_kinds fun h => order_swap_of_numbers rfl h.symm
  | .long i, b => order_swap_of_kinds fun h => order_swap_of_numbers rfl h.symm
  | .float x, b => order_swap_of_kinds fun h => order_swap_of_numbers rfl h.symm
  | .double x, b => order_swap_of_kinds fun h => order_swap_of_numbers rfl h.symm
  | .charArray s, b => order_swap_of_kinds fun h => by
    cases b <;> exact Std.OrientedOrd.eq_swap
  | .byteArray bytes, b => order_swap_of_kinds fun h => by
    cases b with
    | byteArray bytes' =>
      rw [order, order, orderBytes_eq, orderBytes_eq]
      exact Std.OrientedCmp.eq_swap
    | _ => cases h
  | .map es, b => order_swap_of_kinds fun h => by
    cases b <;> first | exact orderEntries_swap es _ | cases h
  | .tuple vs, b => order_swap_of_kinds fun h => by
    cases b <;> first | exact orderRows_swap vs _ | cases h
  | .bag rows, b => order_swap_of_kinds fun h => by
    cases b <;> first | exact orderBags_swap rows _ | cases h
termination_by structural a => a

theorem orderEntries_swap :
    ∀ as bs : List (String × Value), orderEntries bs as = (orderEntries as bs).swap
  | [], [] => rfl
  | [], _ :: _ => rfl
  | _ :: _, [] => rfl
  | (k, v) :: as, (k', v') :: bs => by
    simp only [orderEntries, Ordering.swap_then, order_swap v v', orderEntries_swap as bs,
      show compare k' k = _ from Std.OrientedOrd.eq_swap]
termination_by structural as => as

theorem orderRows_swap : ∀ as bs : List Value, orderRows bs as = (orderRows as bs).swap
  | [], [] => rfl
  | [], _ :: _ => rfl
  | _ :: _, [] => rfl
  | a :: as, b :: bs => by
    simp only [orderRows, Ordering.swap_then, order_swap a b, orderRows_swap as bs]
termination_by structural as => as

theorem orderBags_swap :
    ∀ as bs : List (List Value), orderBags bs as = (orderBags as bs).swap
  | [], [] => rfl
  | [], _ :: _ => rfl
  | _ :: _, [] => rfl
  | a :: as, b :: bs => by
    simp only [orderBags, Ordering.swap_then, orderRows_swap a b, orderBags_swap as bs]
termination_by structural as => as

end

/-! ## Transitivity -/

variable {leaves : List Value}

/-- A number is its only leaf. -/
theorem leaves_of_number (ha : a.kindRank = 2) : a.leaves = [a] := by
  cases a <;> first | rfl | cases ha

/-- Along a number, by `concordant_of_numbers`. -/
theorem concordant_of_number (hsharp : Sharp leaves) (ha : a.kindRank = 2)
    (hal : a.leaves ⊆ leaves) (hbl : b.leaves ⊆ leaves) (hcl : c.leaves ⊆ leaves) :
    Concordant (order a b) (order b c) (order a c) :=
  concordant_of_kinds fun hab hbc => by
    have hb : b.kindRank = 2 := hab ▸ ha
    have hc : c.kindRank = 2 := hbc ▸ hb
    rw [leaves_of_number ha] at hal
    rw [leaves_of_number hb] at hbl
    rw [leaves_of_number hc] at hcl
    exact concordant_of_numbers hsharp ha hb hc (by simp_all)

mutual

/-- Along the first value: the other two are either of its kind or told apart by theirs. -/
theorem concordant_order (hsharp : Sharp leaves) : ∀ a b c : Value, Value.leaves a ⊆ leaves →
    Value.leaves b ⊆ leaves → Value.leaves c ⊆ leaves →
    Concordant (order a b) (order b c) (order a c)
  | .null, b, c, _, _, _ => concordant_of_kinds fun h h' => by
    cases b with
    | null =>
      cases c with
      | null => exact ⟨id, id, id⟩
      | _ => cases h'
    | _ => cases h
  | .boolean x, b, c, _, _, _ => concordant_of_kinds fun h h' => by
    cases b with
    | boolean =>
      cases c with
      | boolean => simp only [order]; exact .of_compare _ _ _
      | _ => cases h'
    | _ => cases h
  | .int i, b, c, ha, hb, hc => concordant_of_number hsharp rfl ha hb hc
  | .long i, b, c, ha, hb, hc => concordant_of_number hsharp rfl ha hb hc
  | .float x, b, c, ha, hb, hc => concordant_of_number hsharp rfl ha hb hc
  | .double x, b, c, ha, hb, hc => concordant_of_number hsharp rfl ha hb hc
  | .charArray s, b, c, _, _, _ => concordant_of_kinds fun h h' => by
    cases b with
    | charArray =>
      cases c with
      | charArray => simp only [order]; exact .of_compare _ _ _
      | _ => cases h'
    | _ => cases h
  | .byteArray bytes, b, c, _, _, _ => concordant_of_kinds fun h h' => by
    cases b with
    | byteArray bytes' =>
      cases c with
      | byteArray bytes'' =>
        simp only [order, orderBytes_eq]
        exact .of_compare _ _ _
      | _ => cases h'
    | _ => cases h
  | .map es, b, c, ha, hb, hc => concordant_of_kinds fun h h' => by
    cases b with
    | map es' =>
      cases c with
      | map es'' => exact concordant_orderEntries hsharp es es' es'' ha hb hc
      | _ => cases h'
    | _ => cases h
  | .tuple vs, b, c, ha, hb, hc => concordant_of_kinds fun h h' => by
    cases b with
    | tuple vs' =>
      cases c with
      | tuple vs'' => exact concordant_orderRows hsharp vs vs' vs'' ha hb hc
      | _ => cases h'
    | _ => cases h
  | .bag rows, b, c, ha, hb, hc => concordant_of_kinds fun h h' => by
    cases b with
    | bag rows' =>
      cases c with
      | bag rows'' => exact concordant_orderBags hsharp rows rows' rows'' ha hb hc
      | _ => cases h'
    | _ => cases h
termination_by structural a => a

theorem concordant_orderEntries (hsharp : Sharp leaves) : ∀ as bs cs : List (String × Value),
    entriesLeaves as ⊆ leaves → entriesLeaves bs ⊆ leaves → entriesLeaves cs ⊆ leaves →
    Concordant (orderEntries as bs) (orderEntries bs cs) (orderEntries as cs)
  | [], bs, cs, _, _, _ => by
    cases bs <;> cases cs <;> constructor <;> simp [orderEntries]
  | a :: as, [], cs, _, _, _ => by
    cases cs <;> constructor <;> simp [orderEntries]
  | _ :: _, _ :: _, [], _, _, _ => ⟨fun _ => rfl, nofun, Eq.symm⟩
  | (k, v) :: as, (k', v') :: bs, (k'', v'') :: cs, ha, hb, hc => by
    simp only [entriesLeaves, List.append_subset] at ha hb hc
    simp only [orderEntries]
    refine .append (.append (.of_compare k k' k'') fun _ _ => ?_) fun _ _ => ?_
    · exact concordant_order hsharp v v' v'' ha.1 hb.1 hc.1
    · exact concordant_orderEntries hsharp as bs cs ha.2 hb.2 hc.2
termination_by structural as => as

theorem concordant_orderRows (hsharp : Sharp leaves) : ∀ as bs cs : List Value,
    rowLeaves as ⊆ leaves → rowLeaves bs ⊆ leaves → rowLeaves cs ⊆ leaves →
    Concordant (orderRows as bs) (orderRows bs cs) (orderRows as cs)
  | [], bs, cs, _, _, _ => by
    cases bs <;> cases cs <;> constructor <;> simp [orderRows]
  | a :: as, [], cs, _, _, _ => by
    cases cs <;> constructor <;> simp [orderRows]
  | _ :: _, _ :: _, [], _, _, _ => ⟨fun _ => rfl, nofun, Eq.symm⟩
  | a :: as, b :: bs, c :: cs, ha, hb, hc => by
    simp only [rowLeaves, List.append_subset] at ha hb hc
    simp only [orderRows]
    refine .append (concordant_order hsharp a b c ha.1 hb.1 hc.1) fun _ _ => ?_
    exact concordant_orderRows hsharp as bs cs ha.2 hb.2 hc.2
termination_by structural as => as

theorem concordant_orderBags (hsharp : Sharp leaves) : ∀ as bs cs : List (List Value),
    bagLeaves as ⊆ leaves → bagLeaves bs ⊆ leaves → bagLeaves cs ⊆ leaves →
    Concordant (orderBags as bs) (orderBags bs cs) (orderBags as cs)
  | [], bs, cs, _, _, _ => by
    cases bs <;> cases cs <;> constructor <;> simp [orderBags]
  | a :: as, [], cs, _, _, _ => by
    cases cs <;> constructor <;> simp [orderBags]
  | _ :: _, _ :: _, [], _, _, _ => ⟨fun _ => rfl, nofun, Eq.symm⟩
  | a :: as, b :: bs, c :: cs, ha, hb, hc => by
    simp only [bagLeaves, List.append_subset] at ha hb hc
    simp only [orderBags]
    refine .append (concordant_orderRows hsharp a b c ha.1 hb.1 hc.1) fun _ _ => ?_
    exact concordant_orderBags hsharp as bs cs ha.2 hb.2 hc.2
termination_by structural as => as

end

/-! ## The order as a preorder -/

/-- The comparison is as in a total preorder at three things; it is transitive there if they may be
compared with each other. -/
structure PreordersAt {α : Type} (comparable : Prop) (cmp : α → α → Ordering)
    (a b c : α) : Prop where
  refl : cmp a a = .eq
  swap : cmp b a = (cmp a b).swap
  trans : comparable → (cmp a b).isLE → (cmp b c).isLE → (cmp a c).isLE
  eq_trans : comparable → cmp a b = .eq → cmp b c = .eq → cmp a c = .eq

theorem PreordersAt.of_concordant {α : Type} {comparable : Prop} {cmp : α → α → Ordering}
    {a b c : α}
    (hself : cmp a a = .eq) (hswap : cmp b a = (cmp a b).swap)
    (h : comparable → Concordant (cmp a b) (cmp b c) (cmp a c)) :
    PreordersAt comparable cmp a b c where
  refl := hself
  swap := hswap
  trans hc := (h hc).isLE_trans
  eq_trans hc hab hbc := ((h hc).left hab).trans hbc

/-- The order of values and that of rows are total preorders as long as no fraction is compared that
is what two different whole numbers are rounded to, and that of rows is lexicographic. -/
theorem order_preorders (a b c : Value) (r s t : List Value) :
    PreordersAt (Unblurred [a, b, c]) order a b c ∧
      PreordersAt (Unblurred (r ++ s ++ t)) orderRows r s t ∧
      orderRows r s = List.compareLex order r s := by
  refine ⟨.of_concordant (order_self a) (order_swap a b) fun h => ?_,
    .of_concordant (orderRows_self r) (orderRows_swap r s) fun h => ?_, orderRows_eq r s⟩
  · refine concordant_order h a b c ?_ ?_ ?_ <;> simp [rowLeaves]
  · refine concordant_orderRows h r s t ?_ ?_ ?_ <;> simp [rowLeaves_append]

theorem order_preorders_sharp :
    Unblurred [.int 7, .double (.ofInt 7), .long 9007199254740993] ∧
      (order (.int 7) (.long 9007199254740993)).isLE := by
  have hsharp : Unblurred [.int 7, .double (.ofInt 7), .long 9007199254740993] := by decide +kernel
  refine ⟨hsharp, ?_⟩
  exact (order_preorders (.int 7) (.double (.ofInt 7)) (.long 9007199254740993) [] [] []).1.trans
    hsharp (by decide +kernel) (by decide +kernel)

/-- A fraction between two whole numbers that are rounded to it equals both. -/
theorem not_preorders_all : ¬ ∀ a b c, PreordersAt True order a b c := fun h => by
  have hends := (h (.long 9007199254740992) (.double (.ofInt 9007199254740992))
    (.long 9007199254740993)).eq_trans trivial (by decide +kernel) (by decide +kernel)
  revert hends
  decide +kernel

end Value

end Dataflow
