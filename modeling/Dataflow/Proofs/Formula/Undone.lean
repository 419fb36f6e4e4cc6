import Dataflow.Proofs.Formula.Conjunction
import Dataflow.Proofs.Formula.Tree
import Dataflow.Proofs.Value.Order

/-!
# Conjunctions undone

A conjunction is made of copies of two formulas, and what is split off it are copies of these
copies. Each is as good as the formula it comes from: it is valid and stands for the same
expression. But a copy lists the users of a node in the order in which a walk from the root comes to
them, whatever the order in the original. Equality up to keys compares these lists, so that it holds
of a formula and its copy exactly if the users were listed that way before (`UsersInTurn`,
`same_copy_iff`). In a tree they always are.

Equality is equality of values besides, which no formula has with itself that holds a constant that
is not a number.
-/

namespace Dataflow

open Dataflow.Graph

/-! ## Constants that equal themselves -/

namespace Value

def isNaN : Value → Bool
  | .float x => x.isNaN
  | .double x => x.isNaN
  | _ => false

/-- Whether something in the value is not a number. -/
def hasNaN (v : Value) : Bool := v.leaves.any isNaN

mutual

/-- A value equals itself, unless something in it is not a number. -/
theorem equals_self : ∀ v : Value, v.leaves.any isNaN = false → v.equals v = true
  | .null, _ => rfl
  | .boolean b, _ | .int i, _ | .long i, _ | .charArray s, _ | .byteArray b, _ => by simp [equals]
  | .float x, h => by
    have hx : x.isNaN = false := by simpa [leaves, isNaN] using h
    simp [equals, Binary.equals, hx]
  | .double x, h => by
    have hx : x.isNaN = false := by simpa [leaves, isNaN] using h
    simp [equals, Binary.equals, hx]
  | .map entries, h => entriesEqual_self entries h
  | .tuple items, h => rowsEqual_self items h
  | .bag rows, h => bagsEqual_self rows h
termination_by structural v => v

theorem entriesEqual_self : ∀ entries : List (String × Value),
    (entriesLeaves entries).any isNaN = false → entriesEqual entries entries = true
  | [], _ => rfl
  | (k, v) :: rest, h => by
    rw [entriesLeaves, List.any_append, Bool.or_eq_false_iff] at h
    simp [entriesEqual, equals_self v h.1, entriesEqual_self rest h.2]
termination_by structural entries => entries

theorem rowsEqual_self : ∀ row : List Value,
    (rowLeaves row).any isNaN = false → rowsEqual row row = true
  | [], _ => rfl
  | v :: rest, h => by
    rw [rowLeaves, List.any_append, Bool.or_eq_false_iff] at h
    simp [rowsEqual, equals_self v h.1, rowsEqual_self rest h.2]
termination_by structural row => row

theorem bagsEqual_self : ∀ rows : List (List Value),
    (bagLeaves rows).any isNaN = false → bagsEqual rows rows = true
  | [], _ => rfl
  | row :: rest, h => by
    rw [bagLeaves, List.any_append, Bool.or_eq_false_iff] at h
    simp [bagsEqual, rowsEqual_self row h.1, bagsEqual_self rest h.2]
termination_by structural rows => rows

end

end Value

namespace Term

/-- Whether the term is a constant in which something is not a number. -/
def hasNaN : Term → Bool
  | .const v => v.hasNaN
  | _ => false

theorem same_self {t : Term} (h : t.hasNaN = false) : t.same t = true := by
  cases t with
  | const v => exact v.equals_self h
  | _ => simp [same]

end Term

namespace Formula

variable {f g a b c : Formula} {x y root : NodeId} {t : Term} {e : Expr} {φ : NodeId → NodeId}

/-- Whether a constant of the formula has something in it that is not a number. -/
def hasNaN (f : Formula) : Bool := f.graph.toList.any fun (_, t) => t.hasNaN

theorem hasNaN_eq_false_iff (h : f.Sound) :
    f.hasNaN = false ↔ ∀ x t, f.graph.content? x = some t → t.hasNaN = false := by
  simp only [hasNaN, List.any_eq_false, Prod.forall, h.wellFormed.mem_toList_iff,
    Bool.not_eq_true]

/-- A formula is equal to itself. -/
theorem same_self (h : f.Sound) (hv : f.Valid) (hnan : f.hasNaN = false) : f.same f = true := by
  refine (isIsomorphic_iff h.wellFormed h.wellFormed hv.acyclic).mpr
    ⟨id, ⟨Set.bijOn_id _, fun x t ht => ⟨t, ht, ?_⟩, fun x _ => (List.map_id _).symm,
      fun x _ => (List.map_id _).symm⟩⟩
  exact Term.same_self ((hasNaN_eq_false_iff h).mp hnan x t ht)

/-! ## What a copy stands for -/

/-- What a node stands for is found again where its operands are found again under new keys. -/
theorem StandsFor.renamed {part : NodeId → Prop} (h : f.StandsFor x e)
    (hcontent : ∀ x, part x → g.graph.content? (φ x) = f.graph.content? x)
    (hsuc : ∀ x, part x → g.graph.successors (φ x) = (f.graph.successors x).map φ)
    (hclosed : ∀ x, part x → ∀ y ∈ f.graph.successors x, part y) (hx : part x) :
    g.StandsFor (φ x) e := by
  induction h with
  | const node outs =>
    exact .const ((hcontent _ hx).trans node) (by rw [hsuc _ hx, outs]; rfl)
  | column node outs =>
    exact .column ((hcontent _ hx).trans node) (by rw [hsuc _ hx, outs]; rfl)
  | unary node outs _ ih =>
    have hy := hclosed _ hx _ (outs ▸ List.mem_singleton_self _)
    exact .unary ((hcontent _ hx).trans node) (by rw [hsuc _ hx, outs]; rfl) (ih hy)
  | binary node outs _ _ iha ihb =>
    have hy := hclosed _ hx _ (outs ▸ List.mem_cons_self)
    have hz := hclosed _ hx _ (outs ▸ List.mem_cons_of_mem _ (List.mem_singleton_self _))
    exact .binary ((hcontent _ hx).trans node) (by rw [hsuc _ hx, outs]; rfl) (iha hy) (ihb hz)

/-- The root of a formula stands for what the formula is read back as. -/
theorem toExpr_eq_ok_iff (h : f.Sound) (hv : f.Valid) (hroot : f.root = .ok root) :
    f.toExpr = .ok e ↔ f.StandsFor root e := by
  have hread : f.toExpr = (f.unfold root).toExpr := by
    unfold Formula.toExpr
    rw [hroot]
    rfl
  rw [hread]
  constructor
  · intro he
    obtain ⟨e', he'⟩ := exists_standsFor h hv root (Valid.contains_root hroot h)
    obtain rfl := Except.ok.inj ((he'.toExpr_eq h hv).symm.trans he)
    exact he'
  · exact fun he => he.toExpr_eq h hv

/-! ## The users of a node -/

/-- Every node of a valid formula is below the root. -/
theorem Valid.mem_descendants (hv : f.Valid) (h : f.Sound) (hroot : f.root = .ok root) :
    ∀ x, f.graph.contains x = true → x ∈ f.graph.descendants root := by
  refine hv.acyclic.from_source h.wellFormed (root_eq_ok.mp hroot)
    (self_mem_descendants (contains_root hroot h)) ?_
  intro y _ hy x hx
  exact h.wellFormed.mem_descendants hy hx

/-- The users of every node are listed in the order in which a walk from the root comes to them. -/
def UsersInTurn (f : Formula) : Prop :=
  ∀ root, f.root = .ok root → ∀ x, f.graph.predecessors x =
    (f.graph.descendants root).filter fun y => x ∈ f.graph.successors y

/-- If every node has at most one user, there is one way to list them: formulas that share nothing
are restored as they were. -/
theorem usersInTurn_of_isTree (h : f.Sound) (hv : f.Valid) (htree : f.isTree = true) :
    f.UsersInTurn := by
  intro root hroot x
  have hmem : ∀ y, y ∈ (f.graph.descendants root).filter (fun y => x ∈ f.graph.successors y) ↔
      y ∈ f.graph.predecessors x := by
    intro y
    rw [List.mem_filter, decide_eq_true_eq, ← h.wellFormed.edge]
    exact and_iff_right_of_imp fun hy => hv.mem_descendants h hroot y
      (contains_of_mem_successors hy)
  have hperm : ((f.graph.descendants root).filter fun y => x ∈ f.graph.successors y).Perm
      (f.graph.predecessors x) :=
    (List.perm_ext_iff_of_nodup (descendants_nodup.filter _) (h.wellFormed.ins_nodup x)).mpr hmem
  cases hpre : f.graph.predecessors x with
  | nil => exact (List.perm_nil.mp (hpre ▸ hperm)).symm
  | cons y ys =>
    have hone := predecessors_of_isTree h htree (x := y) (y := x) (by simp [hpre])
    rw [← hpre, hone]
    exact (List.perm_singleton.mp (hone ▸ hperm)).symm

theorem sound_copy (h : f.Sound) (hv : f.Valid) (hg : g.root = .ok y)
    (hc : Copied f.graph empty g.graph (f.graph.descendants x) φ) : g.Sound ∧ g.Valid := by
  refine ⟨⟨hc.wellFormed, hc.keysBelow⟩, ⟨_, hg⟩, hc.acyclic .empty
    (fun x hx y hy => h.wellFormed.mem_descendants hx hy) hv.acyclic .empty, fun y t ht => ?_⟩
  rcases (hc.contains_iff .empty).mp (contains_of_content? ht) with hold | ⟨z, hz, rfl⟩
  · simp [Graph.empty, Graph.contains] at hold
  · rw [hc.successors z hz, List.length_map]
    exact hv.arity z t (by rw [← hc.content? z hz, ht])

section Copies

variable (h : f.Sound) (hroot : f.root = .ok root) (hg : g.root = .ok (φ root))
  (hc : Copied f.graph empty g.graph (f.graph.descendants root) φ)

include h hroot hg hc

theorem toExpr_copy (hv : f.Valid) : g.toExpr = f.toExpr := by
  obtain ⟨hgs, hgv⟩ := sound_copy h hv hg hc
  have hself := self_mem_descendants (Valid.contains_root hroot h)
  obtain ⟨e, he⟩ := exists_standsFor h hv root (Valid.contains_root hroot h)
  rw [(toExpr_eq_ok_iff h hv hroot).mpr he]
  refine (toExpr_eq_ok_iff hgs hgv hg).mpr ?_
  exact he.renamed hc.content? hc.successors (fun x hx y hy => h.wellFormed.mem_descendants hx hy)
    hself

/-- A copy lists the users of its nodes in turn. -/
theorem usersInTurn_copy : g.UsersInTurn := by
  have hself := self_mem_descendants (Valid.contains_root hroot h)
  have hcontains : ∀ x ∈ f.graph.descendants root, g.graph.contains (φ x) = true := fun x hx =>
    (hc.contains_iff .empty).mpr (.inr ⟨x, hx, rfl⟩)
  have hdesc : g.graph.descendants (φ root) = (f.graph.descendants root).map φ :=
    h.wellFormed.descendants_renamed (Valid.contains_root hroot h) hcontains hc.successors
      fun x hx y hy => hc.inj hx hy
  intro r hr y
  obtain rfl := Except.ok.inj (hg.symm.trans hr)
  cases hy : g.graph.contains y with
  | true =>
    rcases (hc.contains_iff .empty).mp hy with hold | ⟨x, hx, rfl⟩
    · simp [Graph.empty, Graph.contains] at hold
    rw [hc.predecessors x hx, hdesc, List.filter_map]
    congr 1
    refine List.filter_congr fun z hz => ?_
    rw [Function.comp_apply, hc.successors z hz, decide_eq_decide]
    refine ⟨List.mem_map_of_mem, fun hmem => ?_⟩
    obtain ⟨w, hw, heq⟩ := List.mem_map.mp hmem
    exact hc.inj (h.wellFormed.mem_descendants hz hw) hx heq ▸ hw
  | false =>
    rw [predecessors_of_not_contains hy]
    refine (List.filter_eq_nil_iff.mpr fun z _ hz => ?_).symm
    have hz := hc.wellFormed.target (of_decide_eq_true hz)
    rw [hy] at hz
    cases hz

/-- Whatever pairs the nodes of a copy with those of the original slot by slot leads each new key
back: the roots are paired, and with a node its operands. -/
theorem back_of_isomorphism {R : Term → Term → Prop} {ψ : NodeId → NodeId}
    (hψ : Isomorphism R g.graph f.graph ψ) : ∀ x ∈ f.graph.descendants root, ψ (φ x) = x := by
  have hself := self_mem_descendants (Valid.contains_root hroot h)
  have hcontains : ∀ x ∈ f.graph.descendants root, g.graph.contains (φ x) = true := fun x hx =>
    (hc.contains_iff .empty).mpr (.inr ⟨x, hx, rfl⟩)
  have htop : ψ (φ root) = root := by
    have hpre : f.graph.predecessors (ψ (φ root)) = [] := by
      rw [hψ.predecessors _ (hcontains root hself), Valid.predecessors_root hg]
      rfl
    have hmem : ψ (φ root) ∈ f.graph.sources :=
      List.mem_filter.mpr ⟨(h.wellFormed.mem_ids _).mpr (hψ.contains (hcontains root hself)),
        by simp [hpre]⟩
    rw [root_eq_ok.mp hroot] at hmem
    exact List.mem_singleton.mp hmem
  suffices hall : ∀ x ∈ f.graph.descendants root,
      x ∈ f.graph.descendants root ∧ ψ (φ x) = x from fun x hx => (hall x hx).2
  refine descendants_subset ⟨hself, htop⟩ ?_
  rintro x ⟨hx, hback⟩ y hy
  refine ⟨h.wellFormed.mem_descendants hx hy, ?_⟩
  have hslots := hψ.successors _ (hcontains x hx)
  rw [hback, hc.successors x hx, List.map_map] at hslots
  exact (List.map_inj_left.mp ((List.map_id _).trans hslots) y hy).symm

/-- A formula is equal to its copy if and only if it lists the users of its nodes in turn. -/
theorem same_copy_iff (hv : f.Valid) (hnan : f.hasNaN = false) :
    g.same f = true ↔ f.UsersInTurn := by
  obtain ⟨hgs, hgv⟩ := sound_copy h hv hg hc
  have hcontains : ∀ x ∈ f.graph.descendants root, g.graph.contains (φ x) = true := fun x hx =>
    (hc.contains_iff .empty).mpr (.inr ⟨x, hx, rfl⟩)
  have hall := hv.mem_descendants h hroot
  unfold same
  rw [isIsomorphic_iff hgs.wellFormed h.wellFormed hgv.acyclic]
  constructor
  · rintro ⟨ψ, hψ⟩ r hr x
    obtain rfl := Except.ok.inj (hroot.symm.trans hr)
    have hback := back_of_isomorphism h hroot hg hc hψ
    cases hx : f.graph.contains x with
    | true =>
      have hx := hall x hx
      have hslots := hψ.predecessors _ (hcontains x hx)
      rw [hback x hx, hc.predecessors x hx, List.map_map] at hslots
      rw [hslots]
      refine (List.map_congr_left fun z hz => ?_).trans (List.map_id _)
      exact hback z (List.mem_of_mem_filter hz)
    | false =>
      rw [predecessors_of_not_contains hx]
      refine (List.filter_eq_nil_iff.mpr fun z _ hz => ?_).symm
      have hz := h.wellFormed.target (of_decide_eq_true hz)
      rw [hx] at hz
      cases hz
  · intro hturn
    have hφ : Isomorphism (fun t u => u.same t = true) f.graph g.graph φ := by
      refine ⟨⟨fun x hx => hcontains x (hall x hx), fun x hx y hy => hc.inj (hall x hx) (hall y hy),
        fun y hy => ?_⟩, fun x t ht => ⟨t, ?_, ?_⟩, fun x hx => hc.successors x (hall x hx),
        fun x hx => ?_⟩
      · rcases (hc.contains_iff .empty).mp hy with hold | ⟨x, hx, rfl⟩
        · simp [Graph.empty, Graph.contains] at hold
        · exact ⟨x, contains_of_mem_descendants hx, rfl⟩
      · rw [hc.content? x (hall x (contains_of_content? ht)), ht]
      · exact Term.same_self ((hasNaN_eq_false_iff h).mp hnan x t ht)
      · rw [hc.predecessors x (hall x hx), hturn root hroot x]
    obtain ⟨ψ, hψ, -⟩ := hφ.exists_symm h.wellFormed
    exact ⟨ψ, hψ⟩

end Copies

/-! ## Splitting what was joined -/

/-- What is split off a conjunction are copies of what is below its operands. -/
theorem splitConjunction_copied (h : f.Sound) (hv : f.Valid) (hroot : f.root = .ok root)
    (ht : f.graph.content? root = some (.binary .and)) (hxy : f.graph.successors root = [x, y]) :
    ∃ l r φ ψ, f.splitConjunction = .ok (some (l, r)) ∧
      (Copied f.graph empty l.graph (f.graph.descendants x) φ ∧ l.root = .ok (φ x)) ∧
      Copied f.graph empty r.graph (f.graph.descendants y) ψ ∧ r.root = .ok (ψ y) := by
  obtain ⟨l, φ, hl, hlc, -, hlroot⟩ := subformula_copied x h hv
    (h.wellFormed.target (a := root) (by simp [hxy]))
  obtain ⟨r, ψ, hr, hrc, -, hrroot⟩ := subformula_copied y h hv
    (h.wellFormed.target (a := root) (by simp [hxy]))
  refine ⟨l, r, φ, ψ, ?_, ⟨hlc, hlroot⟩, hrc, hrroot⟩
  unfold splitConjunction
  simp only [hroot, content, ht, orError, hxy, hl, hr, bind, Except.bind, pure, Except.pure]

/-- The formula `l` stands for the same expression as `a`, and lists the users of its nodes in turn;
it is equal to `a` exactly if that does, too, as any formula does that shares no nodes. -/
structure IsRestored (a l : Formula) : Prop where
  valid : l.validate = .ok ()
  toExpr : l.toExpr = a.toExpr
  usersInTurn : l.UsersInTurn
  same_iff : l.same a = true ↔ a.UsersInTurn
  same_of_isTree : a.isTree = true → l.same a = true

theorem isRestored_of_copied (ha : a.Sound) (hva : a.Valid) (hnan : a.hasNaN = false)
    (hroot : a.root = .ok root) (hg : g.root = .ok (φ root))
    (hc : Copied a.graph empty g.graph (a.graph.descendants root) φ) : IsRestored a g := by
  obtain ⟨hgs, hgv⟩ := sound_copy ha hva hg hc
  have hsame := same_copy_iff ha hroot hg hc hva hnan
  exact {
    valid := (validate_eq_ok hgs).mpr hgv
    toExpr := toExpr_copy ha hroot hg hc hva
    usersInTurn := usersInTurn_copy ha hroot hg hc
    same_iff := hsame
    same_of_isTree htree := hsame.mpr (usersInTurn_of_isTree ha hva htree) }

/-- The conjunction of two valid formulas is valid and is split again. The parts are valid and stand
for the expressions of the two formulas. They are equal to them, up to keys, if and only if these
list the users of every node in the order of a walk from the root, as the parts do and as all
formulas without shared nodes do. There have to be keys for the conjunction. -/
theorem splitConjunction_conjunction (ha : a.Sound) (hva : a.validate = .ok ())
    (hna : a.hasNaN = false) (hb : b.Sound) (hvb : b.validate = .ok ()) (hnb : b.hasNaN = false)
    (hroom : Conjoinable a b) :
    ∃ c l r, a.conjunction b = .ok c ∧ c.validate = .ok () ∧
      c.splitConjunction = .ok (some (l, r)) ∧ IsRestored a l ∧ IsRestored b r := by
  have hva := (validate_eq_ok ha).mp hva
  have hvb := (validate_eq_ok hb).mp hvb
  obtain ⟨rootA, hrootA⟩ := hva.rooted
  obtain ⟨rootB, hrootB⟩ := hvb.rooted
  obtain ⟨c, φ, ψ, hrun, hc⟩ := exists_conjoined ha hva hb hvb hrootA hrootB
    (hroom rootA rootB hrootA hrootB)
  have hroot := hc.root_eq
  have hvc : c.Valid := ⟨⟨_, hroot⟩, hc.acyclic, fun _ _ => hc.arity hva hvb⟩
  obtain ⟨l, r, χ, θ, hsplit, ⟨hl, hlroot⟩, hr, hrroot⟩ :=
    splitConjunction_copied hc.sound hvc hroot hc.content? hc.operands
  obtain ⟨hinjA, hinjB⟩ := hc.inj
  -- both parts are copies of copies
  have hl := Copied.again ha.wellFormed (Valid.contains_root hrootA ha) hc.left_content?
    hc.left_successors hinjA hl
  have hr := Copied.again hb.wellFormed (Valid.contains_root hrootB hb) hc.right_content?
    hc.right_successors hinjB hr
  exact ⟨c, l, r, hrun, (validate_eq_ok hc.sound).mpr hvc, hsplit,
    isRestored_of_copied ha hva hna hrootA hlroot hl,
    isRestored_of_copied hb hvb hnb hrootB hrroot hr⟩

/-- Whether a column is null and is not true. The column is one node with two users, which were
connected to it in the order in which they stand, or the other way round. -/
def sharing (backward : Bool) : Formula :=
  let (and, g) := Graph.empty.add (.binary .and)
  let (not, g) := g.add (.unary .not)
  let (null, g) := g.add (.unary .isNull)
  let (x, g) := g.add (.column 0 0 none)
  let users := if backward then [(null, x), (not, x)] else [(not, x), (null, x)]
  let g := (users ++ [(and, not), (and, null)]).foldl
    (fun g (a, b) => (g.connect a b).toOption.getD g) g
  ⟨g⟩

theorem sharing_restored : (sharing true).Sound ∧ (sharing false).Sound ∧
    ∃ c l r, (sharing true).conjunction (sharing false) = .ok c ∧ c.validate = .ok () ∧
      c.splitConjunction = .ok (some (l, r)) ∧ IsRestored (sharing true) l ∧
      IsRestored (sharing false) r := by
  have ha : (sharing true).Sound := ⟨by decide +kernel, by decide +kernel⟩
  have hb : (sharing false).Sound := ⟨by decide +kernel, by decide +kernel⟩
  exact ⟨ha, hb, splitConjunction_conjunction ha (by decide +kernel) (by decide +kernel) hb
    (by decide +kernel) (by decide +kernel) (conjoinable_of_length ha hb (by decide +kernel))⟩

/-- What is left of a formula that is joined with another one and split off again. -/
def undone (a b : Formula) : Option Formula :=
  match a.conjunction b with
  | .ok c =>
    match c.splitConjunction with
    | .ok (some (l, _)) => some l
    | _ => none
  | .error _ => none

/-- A part need not be equal to the formula that it is a copy of. -/
theorem not_same_after_splitting : ¬ ∀ a b : Formula, a.Sound → b.Sound → a.validate = .ok () →
    b.validate = .ok () → a.hasNaN = false → b.hasNaN = false → Conjoinable a b →
    ∃ c l r, a.conjunction b = .ok c ∧ c.validate = .ok () ∧
      c.splitConjunction = .ok (some (l, r)) ∧ l.same a = true ∧ r.same b = true := by
  intro h
  have ha : (sharing true).Sound := ⟨by decide +kernel, by decide +kernel⟩
  obtain ⟨c, l, r, hrun, -, hsplit, hsame, -⟩ := h _ _ ha ha (by decide +kernel)
    (by decide +kernel) (by decide +kernel) (by decide +kernel)
    (conjoinable_of_length ha ha (by decide +kernel))
  have hundone : undone (sharing true) (sharing true) = some l := by
    unfold undone
    rw [hrun]
    dsimp only
    rw [hsplit]
  have hdiffer : (undone (sharing true) (sharing true)).map (fun l => l.same (sharing true)) =
      some false := by decide +kernel
  rw [hundone, Option.map_some, hsame] at hdiffer
  cases hdiffer

end Formula

end Dataflow
