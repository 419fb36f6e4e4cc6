import Dataflow.Proofs.Command.Acts
import Dataflow.Proofs.Engine.Outputs
import Dataflow.Proofs.Location.Canonical
import Dataflow.Proofs.Script.Places

/-!
# Inputs of the run command

A script brings its locations into canonical form by one resolver, and the locations of the bindings
are resolved by the other one, which knows the scheme of data in memory. They differ only where
something behind that scheme ends in a slash (`Location.resolveInMemory_eq_iff`). So a load finds
the records of a binding that is spelled like it, or in any other way that resolves alike, unless
the binding is spelled like that (`Command.inputs_found`).
-/

namespace Dataflow

/-! ## Two resolvers -/

namespace Location

open Text (isBlank trimmed)

/-- Data in memory whose location is written with a slash at the end. -/
def KeepsSlash (location : String) : Prop :=
  memoryScheme <+: location.toList ∧ (trimmed location.toList).getLast? = some '/'

instance {location : String} : Decidable (KeepsSlash location) :=
  inferInstanceAs (Decidable (_ ∧ _))

theorem memoryScheme_eq : memoryScheme = 'm' :: "emory".toList ++ schemeMark := by decide +kernel

/-- The scheme stays in front when blank characters are dropped. -/
theorem memoryScheme_isPrefix_trimmed {t : List Char} (h : memoryScheme <+: t) :
    memoryScheme <+: trimmed t := by
  obtain ⟨rest, rfl⟩ := h
  have hbegins : Text.BeginsPlain (memoryScheme ++ rest) := by
    intro c hc
    rw [memoryScheme_eq, List.cons_append, List.cons_append, List.head?_cons] at hc
    obtain rfl := Option.some.inj hc
    decide
  rw [Text.trimmed_of_beginsPlain hbegins]
  by_cases hrest : Text.dropEnd isBlank rest = []
  · rw [Text.dropEnd_append_of_all (Text.dropEnd_eq_nil_iff.mp hrest)]
    decide +kernel
  · rw [Text.dropEnd_append hrest]
    exact List.prefix_append _ _

theorem resolveTrimmed_memory {t : List Char} (h : memoryScheme <+: t) (d : List Char) :
    resolveTrimmed t d = .ok (dropSlashes t) := by
  obtain ⟨rest, rfl⟩ := h
  refine resolveTrimmed_eq_ok.mpr (.inr ⟨'m' :: "emory".toList, rest, ⟨?_, ?_, ?_⟩, rfl⟩)
  · rw [memoryScheme_eq, List.append_assoc]
  · decide +kernel
  · decide +kernel

theorem dropSlashes_eq_self_iff {t : List Char} : dropSlashes t = t ↔ t.getLast? ≠ some '/' := by
  rw [dropSlashes, Text.dropEnd_eq_self_iff]
  constructor
  · intro h hlast
    exact absurd (h '/' hlast) (by decide)
  · intro h c hc
    rw [beq_eq_false_iff_ne]
    rintro rfl
    exact h hc

/-- Both resolvers bring a location into the same form, or fail alike, unless it is one of data in
memory with a slash at the end. -/
theorem resolveInMemory_eq_iff {location directory : String} :
    resolveInMemory location directory = resolve location directory ↔ ¬KeepsSlash location := by
  unfold resolveInMemory KeepsSlash
  simp only [List.isPrefixOf_iff_prefix]
  by_cases hmemory : memoryScheme <+: location.toList
  · have htrimmed := memoryScheme_isPrefix_trimmed hmemory
    rw [if_pos hmemory, resolve, resolveTrimmed_memory htrimmed, not_and,
      forall_prop_of_true hmemory, ← ne_eq, ← dropSlashes_eq_self_iff]
    show Except.ok (String.ofList (trimmed location.toList)) = Except.ok (String.ofList _) ↔ _
    rw [Except.ok.injEq, String.ofList_inj]
    exact eq_comm
  · rw [if_neg hmemory]
    exact iff_of_true rfl fun h => hmemory h.1

end Location

/-! ## Filling the storage -/

/-- The binding is of the location, and its file holds the records. -/
structure Binding.Holds (d : Desk) (b : Binding) (location : String) (records : List Row) :
    Prop where
  location : Location.resolveInMemory b.location d.here = .ok location
  records : ∃ text, d.tree.read d.directory b.file = .ok text ∧ Records.ofLines text = .ok records

namespace Command

variable {d d' : Desk} {b : Binding} {inputs rest : List Binding} {s s' : Storage}
  {location : String} {records : List Row}

/-- The last of the bindings of the location holds the records. -/
def LastHolds (d : Desk) (inputs : List Binding) (location : String) (records : List Row) : Prop :=
  ∃ before b behind, inputs = before ++ b :: behind ∧ b.Holds d location records ∧
    ∀ c ∈ behind, Location.resolveInMemory c.location d.here ≠ .ok location

theorem SameFiles.lastHolds (h : SameFiles d d') :
    LastHolds d inputs location records ↔ LastHolds d' inputs location records := by
  have hholds : ∀ b : Binding, b.Holds d location records ↔ b.Holds d' location records := by
    intro b
    constructor
    · rintro ⟨hlocation, hrecords⟩
      exact ⟨by rwa [h.here], by rwa [h.tree, h.directory]⟩
    · rintro ⟨hlocation, hrecords⟩
      exact ⟨by rwa [← h.here], by rwa [← h.tree, ← h.directory]⟩
  unfold LastHolds
  simp only [hholds, h.here]

theorem loadInputs_cons_eq_ok : onDesk (loadInputs d.here (b :: rest) s) d = (.ok s', d') ↔
    ∃ location records, b.Holds d location records ∧
      onDesk (loadInputs d.here rest (s.insert location records)) d = (.ok s', d') := by
  rw [loadInputs]
  simp only [onDesk_bind_eq_ok, onDesk_ofResult, onDesk_ofRunResult, onDesk_read, Prod.mk.injEq,
    mapError_eq_ok]
  constructor
  · rintro ⟨location, _, ⟨hlocation, rfl⟩, text, _, ⟨htext, rfl⟩, records, _, ⟨hrecords, rfl⟩, h⟩
    exact ⟨location, records, ⟨hlocation, text, htext, hrecords⟩, h⟩
  · rintro ⟨location, records, ⟨hlocation, text, htext, hrecords⟩, h⟩
    exact ⟨location, d, ⟨hlocation, rfl⟩, text, d, ⟨htext, rfl⟩, records, d, ⟨hrecords, rfl⟩, h⟩

/-- At a location is what the last of its bindings holds, and what was there if there is none. -/
theorem loadInputs_spec (h : onDesk (loadInputs d.here inputs s) d = (.ok s', d')) : d' = d ∧
    ∀ location, (∃ records, LastHolds d inputs location records ∧
        s'.get? location = some records) ∨
      (∀ b ∈ inputs, Location.resolveInMemory b.location d.here ≠ .ok location) ∧
        s'.get? location = s.get? location := by
  induction inputs generalizing s with
  | nil =>
    obtain ⟨hs, rfl⟩ := Prod.mk.inj h
    obtain rfl := Except.ok.inj hs
    exact ⟨rfl, fun _ => .inr ⟨by simp, rfl⟩⟩
  | cons b rest ih =>
    obtain ⟨written, records, hholds, h⟩ := loadInputs_cons_eq_ok.mp h
    obtain ⟨hd, hall⟩ := ih h
    refine ⟨hd, fun location => ?_⟩
    -- a later binding of the location decides, and this one only if there is none
    rcases hall location with ⟨found, ⟨before, c, behind, rfl, hlast⟩, hget⟩ | ⟨hnone, hget⟩
    · exact .inl ⟨found, ⟨b :: before, c, behind, rfl, hlast⟩, hget⟩
    by_cases heq : written = location
    · subst heq
      exact .inl ⟨records, ⟨[], b, rest, rfl, hholds, hnone⟩, hget.trans Storage.get?_insert_self⟩
    · refine .inr ⟨List.forall_mem_cons.mpr ⟨?_, hnone⟩, hget.trans (Storage.get?_insert heq)⟩
      rw [hholds.location]
      exact fun h => heq (Except.ok.inj h)

/-! ## Getting ready -/

theorem openScript_eq_ok {path : String} {script : Session × Config}
    (h : onDesk (openScript path) d = (.ok script, d')) : d' = d ∧
      ∃ text, d.tree.read d.directory path = .ok text ∧
        Script.open? d.environment text { directory := d.here } = .ok script := by
  unfold openScript at h
  obtain ⟨text, t, hread, h⟩ := onDesk_bind_eq_ok.mp h
  rw [onDesk_read, Prod.mk.injEq, mapError_eq_ok] at hread
  obtain ⟨hread, rfl⟩ := hread
  rw [onDesk_bind_of_ok onDesk_environment, onDesk_bind_of_ok onDesk_directory, onDesk_ofResult,
    Prod.mk.injEq, mapError_eq_ok, mapError_eq_ok] at h
  exact ⟨h.2.symm, text, hread, h.1⟩

/-- Optimizing keeps the places that are read from, and tells about it only. -/
theorem optimized_eq_ok {places : String → Prop} {script : Session × Config} {settings : Settings}
    {r : Report × Session} (hreads : script.1.plan.ReadsFrom places)
    (h : onDesk (optimized script settings) d = (.ok r, d')) :
    SameFiles d d' ∧ r.2.plan.ReadsFrom places := by
  unfold optimized at h
  obtain ⟨⟨report, s⟩, t, hedit, h⟩ := onDesk_bind_eq_ok.mp h
  obtain ⟨_, t₁, htrace, h⟩ := onDesk_bind_eq_ok.mp h
  obtain ⟨_, t₂, hwarn, h⟩ := onDesk_bind_eq_ok.mp h
  obtain ⟨hr, rfl⟩ := Prod.mk.inj h
  obtain rfl := Except.ok.inj hr
  unfold editPlan at hedit
  cases hrun :
      Session.onPlan ({ config := settings.apply script.2 } : Optimizer).optimize script.1 with
  | error e q => simp [hrun] at hedit
  | ok report' q =>
    rw [hrun] at hedit
    obtain ⟨hr, rfl⟩ := Prod.mk.inj hedit
    obtain ⟨rfl, rfl⟩ := Prod.mk.inj (Except.ok.inj hr)
    refine ⟨(sameFiles_tellAll htrace).trans (sameFiles_tellAll hwarn), ?_⟩
    show q.plan.ReadsFrom places
    exact (Optimizer.optimize_readsFrom _).of_ok hreads (Session.plan_onPlan hrun)

theorem chosen_eq_ok {places : String → Prop} {script : Session × Config} {settings : Settings}
    {asWritten : Bool} {s : Session} (hreads : script.1.plan.ReadsFrom places)
    (h : onDesk (chosen asWritten settings script) d = (.ok s, d')) :
    SameFiles d d' ∧ s.plan.ReadsFrom places := by
  cases asWritten with
  | true =>
    obtain ⟨hs, rfl⟩ := Prod.mk.inj h
    obtain rfl := Except.ok.inj hs
    exact ⟨.refl, hreads⟩
  | false =>
    rw [chosen, if_neg (by simp), map_eq_pure_bind] at h
    obtain ⟨r, t, hr, h⟩ := onDesk_bind_eq_ok.mp h
    obtain ⟨hs, rfl⟩ := Prod.mk.inj h
    obtain rfl := Except.ok.inj hs
    exact optimized_eq_ok hreads hr

/-- What is run when the run command got ready: each load of the plan reads at what the path of a
load statement of the script resolves to, and the storage was filled from the bindings. -/
theorem ready_eq_ok {path : String} {asWritten : Bool} {settings : Settings} {s : Session}
    {storage : Storage}
    (h : onDesk (ready path inputs asWritten settings) d = (.ok (s, storage), d')) :
    SameFiles d d' ∧ (∃ text script, d.tree.read d.directory path = .ok text ∧
      Script.ofText text = .ok script ∧ s.plan.ReadsFrom (script.LoadsAt d.here)) ∧
    onDesk (loadInputs d.here inputs {}) d' = (.ok storage, d') := by
  unfold ready at h
  obtain ⟨script, t, hscript, hrest⟩ := onDesk_bind_eq_ok.mp h
  obtain ⟨rfl, text, htext, hopen⟩ := openScript_eq_ok hscript
  obtain ⟨parsed, hparsed, hreads⟩ := Script.open_readsFrom hopen
  obtain ⟨s', t₁, hplan, hfill⟩ := onDesk_bind_eq_ok.mp hrest
  obtain ⟨hfiles, hreads⟩ := chosen_eq_ok hreads hplan
  rw [onDesk_bind_of_ok onDesk_directory] at hfill
  obtain ⟨storage', t₂, hload, hend⟩ := onDesk_bind_eq_ok.mp hfill
  obtain ⟨hs, rfl⟩ := Prod.mk.inj hend
  obtain ⟨rfl, rfl⟩ := Prod.mk.inj (Except.ok.inj hs)
  obtain ⟨rfl, -⟩ := loadInputs_spec hload
  exact ⟨hfiles, ⟨text, parsed, htext, hparsed, hreads⟩, hfiles.here ▸ hload⟩

/-- Locations of scripts and of bindings resolve alike, except for data in memory with a slash at
the end. When the run command got ready, the jobs of the plan are run on the storage, and each load
of the plan reads at what the path of a load statement resolves to; if a binding that is no
exception resolves to the same, as one with this path does, the load finds the records of the last
such binding, in each stage if no store writes there. -/
theorem inputs_found {path : String} {asWritten : Bool} {settings : Settings} {s : Session}
    {storage : Storage}
    (h : onDesk (ready path inputs asWritten settings) d = (.ok (s, storage), d')) :
    (∀ location directory, Location.resolveInMemory location directory =
      Location.resolve location directory ↔ ¬Location.KeepsSlash location) ∧
    (∀ output, onDesk (act (.run path inputs asWritten output settings)) d =
      onDesk (finish output s storage) d') ∧
    ∃ text script, d.tree.read d.directory path = .ok text ∧ Script.ofText text = .ok script ∧
      ∀ z op l, s.plan.operator? z = some op → op.operation = .load l →
        script.LoadsAt d.here l.location ∧
        ∀ b ∈ inputs, Location.resolve b.location d.here = .ok l.location →
          ¬Location.KeepsSlash b.location → ∃ records, LastHolds d inputs l.location records ∧
            storage.get? l.location = some records ∧
            ∀ P, Prepared.ofPlan s.plan = .ok P → s.plan.Unwritten l.location →
              ∀ i ≤ P.stages.length,
                (Engine.before P storage i).2.get? l.location = some records := by
  obtain ⟨hfiles, ⟨text, script, htext, hscript, hreads⟩, hload⟩ := ready_eq_ok h
  refine ⟨fun _ _ => Location.resolveInMemory_eq_iff, fun output => onDesk_act_run h, text, script,
    htext, hscript, ?_⟩
  intro z op l hop hl
  have hat := hreads z op hop
  rw [hl] at hat
  refine ⟨hat, fun b hb hresolve hplain => ?_⟩
  rw [← hfiles.here] at hload
  have hbound : Location.resolveInMemory b.location d'.here = .ok l.location := by
    rw [Location.resolveInMemory_eq_iff.mpr hplain, hfiles.here, hresolve]
  rcases (loadInputs_spec hload).2 l.location with ⟨records, hlast, hget⟩ | ⟨hnone, -⟩
  · refine ⟨records, hfiles.lastHolds.mpr hlast, hget, fun P hP hunwritten i hi => ?_⟩
    rw [Engine.found_in_stage hP hunwritten storage i hi, hget]
  · exact absurd hbound (hnone b hb)

/-! ## A script that copies -/

/-- A script that copies from a location. -/
def copyText (location : String) : String :=
  "statements:\n- op: load\n  alias: A\n  path: " ++ location ++
    "\n- op: store\n  input: A\n  path: /out\n"

/-- A desk with the script and with two records. -/
def copyDesk (location : String) : Desk :=
  .holding [("copy.yaml", copyText location), ("rows.jsonl", "[1]\n[2]\n")] fun _ => none

/-- Got ready with the records for the location that the script copies from, the first operator
loads from `place`, and the test says what is found there. -/
def copyReady (location place : String) (test : Option (List Row) → Bool) : Bool :=
  match onDesk (ready "copy.yaml" [⟨location, "rows.jsonl"⟩] false {}) (copyDesk location) with
  | (.ok (s, storage), _) =>
    (s.plan.operator? ⟨0⟩).any fun op => match op.operation with
      | .load l => l.location = place && test (storage.get? place)
      | _ => false
  | _ => false

theorem exists_ready (location place : String) (test : Option (List Row) → Bool)
    (h : copyReady location place test = true) : ∃ s storage d',
    onDesk (ready "copy.yaml" [⟨location, "rows.jsonl"⟩] false {}) (copyDesk location) =
      (.ok (s, storage), d') ∧
    (∃ op l, s.plan.operator? ⟨0⟩ = some op ∧ op.operation = .load l ∧ l.location = place) ∧
    test (storage.get? place) = true := by
  unfold copyReady at h
  split at h
  · next s storage d' hready =>
    cases hop : s.plan.operator? ⟨0⟩ with
    | none => simp [hop] at h
    | some op =>
      rw [hop, Option.any_some] at h
      split at h
      · next l hl =>
        obtain ⟨hplace, htest⟩ := Bool.and_eq_true_iff.mp h
        exact ⟨s, storage, d', hready, ⟨op, l, hop, hl, of_decide_eq_true hplace⟩, htest⟩
      · cases h
  · cases h

/-- With the location spelled the same way in the binding, the load finds the records. -/
theorem copied_found : ∃ s storage d' op l,
    onDesk (ready "copy.yaml" [⟨"in/./x", "rows.jsonl"⟩] false {}) (copyDesk "in/./x") =
      (.ok (s, storage), d') ∧
    onDesk (act (.run "copy.yaml" [⟨"in/./x", "rows.jsonl"⟩] false none {})) (copyDesk "in/./x") =
      onDesk (finish none s storage) d' ∧
    s.plan.operator? ⟨0⟩ = some op ∧ op.operation = .load l ∧
    ∃ records, LastHolds (copyDesk "in/./x") [⟨"in/./x", "rows.jsonl"⟩] l.location records ∧
      storage.get? l.location = some records := by
  obtain ⟨s, storage, d', hready, ⟨op, l, hop, hl, hplace⟩, -⟩ := exists_ready
    "in/./x" "/tmp/desk/in/x" (fun _ => true) (by decide +kernel)
  obtain ⟨-, hrun, _, _, -, -, hfound⟩ := inputs_found hready
  have hresolve : Location.resolve "in/./x" (copyDesk "in/./x").here = .ok l.location := by
    rw [hplace]
    decide +kernel
  obtain ⟨records, hlast, hget, -⟩ := (hfound ⟨0⟩ op l hop hl).2 ⟨"in/./x", "rows.jsonl"⟩
    List.mem_cons_self hresolve (by decide +kernel)
  exact ⟨s, storage, d', op, l, hready, hrun none, hop, hl, records, hlast, hget⟩

/-- Whether the first statement of a script loads from the path. -/
def loadsFirst (path : String) (script : Script) : Bool :=
  match script.statements with
  | .load _ first _ :: _ => first = path
  | _ => false

/-- With a slash at the end the resolvers differ, and the load finds nothing although the binding is
spelled like it. -/
theorem not_always_found : (¬∀ location directory : String,
      Location.resolveInMemory location directory = Location.resolve location directory) ∧
    ¬∀ (d d' : Desk) (path text : String) (inputs : List Binding) (asWritten : Bool)
      (settings : Settings) (s : Session) (storage : Storage) (script : Script),
      onDesk (ready path inputs asWritten settings) d = (.ok (s, storage), d') →
      d.tree.read d.directory path = .ok text → Script.ofText text = .ok script →
      ∀ name b columns, .load name b.location columns ∈ script.statements → b ∈ inputs →
        ∀ z op l, s.plan.operator? z = some op → op.operation = .load l →
          Location.resolve b.location d.here = .ok l.location →
            (storage.get? l.location).isSome = true := by
  constructor
  · intro hall
    have h := hall "memory://in/" "/"
    rw [Location.resolveInMemory_eq_iff] at h
    exact h (by decide +kernel)
  · intro hall
    obtain ⟨s, storage, d', hready, ⟨op, l, hop, hl, hplace⟩, hnone⟩ := exists_ready
      "memory://in/" "memory://in" Option.isNone (by decide +kernel)
    have htext : (copyDesk "memory://in/").tree.read (copyDesk "memory://in/").directory
        "copy.yaml" = .ok (copyText "memory://in/") := by decide +kernel
    have hscript : (Script.ofText (copyText "memory://in/")).toOption.any
        (loadsFirst "memory://in/") = true := by decide +kernel
    have hresolve : Location.resolve "memory://in/" (copyDesk "memory://in/").here =
        .ok l.location := by
      rw [hplace]
      decide +kernel
    cases hparsed : Script.ofText (copyText "memory://in/") with
    | error e => simp [hparsed, Except.toOption] at hscript
    | ok script =>
      rw [hparsed] at hscript
      have hfirst : loadsFirst "memory://in/" script = true := hscript
      unfold loadsFirst at hfirst
      split at hfirst
      · next name first columns rest hstatements =>
        obtain rfl := of_decide_eq_true hfirst
        have hfound := hall _ d' _ _ _ _ _ s storage script hready htext hparsed name
          ⟨"memory://in/", "rows.jsonl"⟩ columns (hstatements ▸ List.mem_cons_self)
          List.mem_cons_self ⟨0⟩ op l hop hl hresolve
        rw [hplace, Option.isSome_iff_ne_none] at hfound
        exact hfound (Option.isNone_iff_eq_none.mp hnone)
      · cases hfirst

end Command

end Dataflow
