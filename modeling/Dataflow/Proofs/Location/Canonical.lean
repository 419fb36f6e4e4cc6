import Dataflow.Location
import Dataflow.Proofs.Pass
import Dataflow.Proofs.Text.Parts
import Mathlib.Logic.Relation

/-!
# Canonical locations

A resolved location is its own canonical form, whatever directory it is seen from, unless it ends in
white space or nothing was left behind its scheme (`canonical_of_resolve`). A resolved path leads
from the root through names only, and ways of writing a path that differ by doubled slashes, `.` or
a name followed by `..` resolve alike.
-/

namespace Dataflow.Location

open Text (BeginsPlain EndsWithout IsBefore isBlank splitOn splitOnce trimmed)

variable {t t' p p' r d scheme rest segment idle : List Char}
  {taken taken' names : List (List Char)}

/-! ## Names on the way -/

/-- A segment that leads on to something. -/
def IsName (segment : List Char) : Prop :=
  segment ≠ [] ∧ segment ≠ ['.'] ∧ segment ≠ ['.', '.'] ∧ '/' ∉ segment

instance : Decidable (IsName segment) := inferInstanceAs (Decidable (_ ∧ _))

/-- A path from the root through names only. -/
def IsPath (t : List Char) : Prop := ∃ names, (∀ s ∈ names, IsName s) ∧ ofSegments names = t

/-- Goes on along a path from where the taken segments lead. -/
def walk (taken : List (List Char)) (path : List Char) : Option (List (List Char)) :=
  (splitOn '/' path).foldlM addSegment taken

theorem addSegment_name (h : IsName segment) :
    addSegment taken segment = some (segment :: taken) := by
  obtain ⟨hnil, hhere, hup, -⟩ := h
  unfold addSegment
  rw [if_neg (by simp [hnil, hhere]), if_neg hup]

@[simp] theorem addSegment_nil : addSegment taken [] = some taken := rfl

@[simp] theorem addSegment_here : addSegment taken ['.'] = some taken := rfl

@[simp] theorem addSegment_up : addSegment (segment :: taken) ['.', '.'] = some taken := rfl

theorem addSegment_names (hpart : '/' ∉ segment) (h : addSegment taken segment = some taken')
    (hnames : ∀ s ∈ taken, IsName s) : ∀ s ∈ taken', IsName s := by
  unfold addSegment at h
  split_ifs at h with hskip hup
  · exact Option.some.inj h ▸ hnames
  · cases taken with
    | nil => simp at h
    | cons last taken =>
      obtain rfl : taken = taken' := Option.some.inj h
      exact fun s hs => hnames s (List.mem_cons_of_mem last hs)
  · obtain rfl : segment :: taken = taken' := Option.some.inj h
    rw [not_or] at hskip
    exact List.forall_mem_cons.mpr ⟨⟨hskip.1, hskip.2, hup, hpart⟩, hnames⟩

/-- How long segments are with a slash before each. -/
def span (segments : List (List Char)) : Nat := (segments.map fun s => s.length + 1).sum

theorem span_addSegment (h : addSegment taken segment = some taken') :
    span taken' ≤ span taken + (segment.length + 1) := by
  unfold addSegment at h
  split_ifs at h
  · exact Option.some.inj h ▸ Nat.le_add_right _ _
  · cases taken with
    | nil => simp at h
    | cons last taken =>
      obtain rfl : taken = taken' := Option.some.inj h
      simp only [span, List.map_cons, List.sum_cons]
      omega
  · obtain rfl : segment :: taken = taken' := Option.some.inj h
    simp only [span, List.map_cons, List.sum_cons]
    omega

/-- Taking segments one after the other leaves names, and no more text than there was. -/
theorem foldlM_addSegment {parts : List (List Char)} (hparts : ∀ s ∈ parts, '/' ∉ s)
    (hnames : ∀ s ∈ taken, IsName s) (h : parts.foldlM addSegment taken = some taken') :
    (∀ s ∈ taken', IsName s) ∧ span taken' ≤ span taken + span parts := by
  induction parts generalizing taken with
  | nil =>
    obtain rfl : taken = taken' := Option.some.inj h
    exact ⟨hnames, Nat.le_add_right _ _⟩
  | cons s parts ih =>
    obtain ⟨hs, hparts⟩ := List.forall_mem_cons.mp hparts
    rw [List.foldlM_cons] at h
    obtain ⟨next, hnext, h⟩ := Option.bind_eq_some_iff.mp h
    obtain ⟨hall, hspan⟩ := ih hparts (addSegment_names hs hnext hnames) h
    refine ⟨hall, ?_⟩
    have hstep := span_addSegment hnext
    simp only [span, List.map_cons, List.sum_cons] at hstep hspan ⊢
    omega

theorem foldlM_names (h : ∀ s ∈ names, IsName s) (taken : List (List Char)) :
    names.foldlM addSegment taken = some (names.reverse ++ taken) := by
  induction names generalizing taken with
  | nil => rfl
  | cons s names ih =>
    obtain ⟨hs, hnames⟩ := List.forall_mem_cons.mp h
    rw [List.foldlM_cons, addSegment_name hs]
    simpa using ih hnames (s :: taken)

/-! ## Normal paths -/

theorem walk_append (s t : List Char) :
    walk taken (s ++ '/' :: t) = (walk taken s).bind (walk · t) := by
  unfold walk
  rw [Text.splitOn_append_cons, List.foldlM_append]
  rfl

theorem splitOn_names {first : List Char} (h : ∀ s ∈ first :: names, IsName s) :
    splitOn '/' (first ++ names.flatMap ('/' :: ·)) = first :: names := by
  induction names generalizing first with
  | nil =>
    rw [List.flatMap_nil, List.append_nil]
    exact Text.splitOn_of_notMem (h first (by simp)).2.2.2
  | cons s names ih =>
    obtain ⟨hfirst, hnames⟩ := List.forall_mem_cons.mp h
    rw [List.flatMap_cons, List.cons_append, Text.splitOn_append hfirst.2.2.2, ih hnames]

/-- The segments of a normal path are its names. -/
theorem splitOn_ofSegments (h : ∀ s ∈ names, IsName s) (hne : names ≠ []) :
    splitOn '/' (ofSegments names) = [] :: names := by
  obtain ⟨first, names, rfl⟩ := List.exists_cons_of_ne_nil hne
  exact congrArg ([] :: ·) (splitOn_names h)

theorem walk_ofSegments (h : ∀ s ∈ names, IsName s) :
    walk [] (ofSegments names) = some names.reverse := by
  by_cases hne : names = []
  · subst hne
    rfl
  · rw [walk, splitOn_ofSegments h hne, List.foldlM_cons, addSegment_nil]
    simpa using foldlM_names h []

theorem normalize_eq_ok : normalize p = .ok r ↔
    ∃ taken, walk [] p = some taken ∧ ofSegments taken.reverse = r := by
  have hsegments : segments? p = (walk [] p).map List.reverse := rfl
  unfold normalize
  rw [hsegments]
  cases walk [] p with
  | none => simp
  | some taken => simp

/-- What is normal stays as it is. -/
theorem normalize_of_isPath (h : IsPath r) : normalize r = .ok r := by
  obtain ⟨names, hnames, rfl⟩ := h
  refine normalize_eq_ok.mpr ⟨names.reverse, walk_ofSegments hnames, ?_⟩
  rw [List.reverse_reverse]

theorem length_ofSegments (hne : names ≠ []) : (ofSegments names).length = span names := by
  obtain ⟨first, names, rfl⟩ := List.exists_cons_of_ne_nil hne
  show ((first :: names).flatMap ('/' :: ·)).length = _
  rw [List.length_flatMap]
  rfl

theorem isPath_of_normalize (h : normalize p = .ok r) : IsPath r := by
  obtain ⟨taken, hwalk, rfl⟩ := normalize_eq_ok.mp h
  have hnames := (foldlM_addSegment (fun s hs => Text.notMem_of_mem_splitOn hs) (by simp) hwalk).1
  exact ⟨taken.reverse, fun s hs => hnames s (List.mem_reverse.mp hs), rfl⟩

/-- The normal form of a path from the root is not longer than the path. -/
theorem length_le_of_normalize (h : normalize ('/' :: p) = .ok r) : r.length ≤ p.length + 1 := by
  obtain ⟨taken, hwalk, rfl⟩ := normalize_eq_ok.mp h
  have hwalk : (splitOn '/' p).foldlM addSegment [] = some taken := by
    rwa [walk, splitOn, if_pos rfl, List.foldlM_cons] at hwalk
  have hspan := (foldlM_addSegment (fun s hs => Text.notMem_of_mem_splitOn hs) (by simp) hwalk).2
  have hlength : span (splitOn '/' p) = p.length + 1 := Text.length_splitOn '/' p
  by_cases hne : taken.reverse = []
  · rw [hne]
    exact Nat.le_add_left 1 p.length
  · rw [length_ofSegments hne, span, List.map_reverse, List.sum_reverse]
    rw [hlength] at hspan
    simpa [span] using hspan

theorem head?_of_isPath (h : IsPath r) : ∃ rest, r = '/' :: rest := by
  obtain ⟨names, -, rfl⟩ := h
  cases names with
  | nil => exact ⟨[], rfl⟩
  | cons first names => exact ⟨first ++ names.flatMap ('/' :: ·), rfl⟩

/-! ## Schemes -/

/-- The mark of a scheme stands somewhere in the text. -/
def HasScheme (t : List Char) : Prop := schemeMark <:+: t

instance : Decidable (HasScheme t) := inferInstanceAs (Decidable (schemeMark <:+: t))

theorem schemeMark_ne_nil : schemeMark ≠ [] := by decide

/-- The scheme of files, with its mark. -/
def fileScheme : List Char := ['f', 'i', 'l', 'e']

/-- The scheme is not the one of files. -/
structure Foreign (t scheme rest : List Char) : Prop where
  eq : t = scheme ++ (schemeMark ++ rest)
  isBefore : IsBefore schemeMark scheme
  ne_file : scheme ≠ fileScheme

/-- Two slashes would have an empty segment between them. -/
theorem not_hasScheme_of_isPath (h : IsPath r) : ¬HasScheme r := by
  rintro ⟨before, behind, heq⟩
  obtain ⟨names, hnames, rfl⟩ := h
  have hsplit : splitOn '/' (ofSegments names) =
      splitOn '/' (before ++ [':']) ++ [] :: splitOn '/' behind := by
    rw [← heq, schemeMark, List.append_assoc]
    show splitOn '/' (before ++ ([':'] ++ '/' :: ([] ++ '/' :: behind))) = _
    rw [← List.append_assoc, Text.splitOn_append_cons, Text.splitOn_append (by simp)]
  obtain ⟨first, parts, hfirst⟩ :=
    List.exists_cons_of_ne_nil (Text.splitOn_ne_nil '/' (before ++ [':']))
  obtain ⟨last, parts', hlast⟩ := List.exists_cons_of_ne_nil (Text.splitOn_ne_nil '/' behind)
  by_cases hne : names = []
  · -- the root has two segments, and here would be three
    subst hne
    have hlen := congrArg List.length hsplit
    rw [hfirst, hlast] at hlen
    simp [ofSegments, splitOn] at hlen
    omega
  · rw [splitOn_ofSegments hnames hne, hfirst, List.cons_append] at hsplit
    have hmem : [] ∈ names := by
      rw [(List.cons.inj hsplit).2]
      simp
    exact (hnames [] hmem).1 rfl

/-- The path that a trimmed location stands for, if it has no scheme or the one of files. -/
inductive StandsFor (directory : List Char) : List Char → List Char → Prop
  | file (path : List Char) : StandsFor directory (fileScheme ++ (schemeMark ++ path)) path
  | absolute (path : List Char) : ¬HasScheme ('/' :: path) →
      StandsFor directory ('/' :: path) ('/' :: path)
  | relative (path : List Char) : ¬HasScheme path → path ≠ [] → path.head? ≠ some '/' →
      directory.head? = some '/' →
      StandsFor directory path (dropSlashes directory ++ '/' :: path)

/-- All that can become of a trimmed location. -/
theorem resolveTrimmed_eq_ok : resolveTrimmed t d = .ok r ↔
    (∃ p, StandsFor d t p ∧ normalize p = .ok r) ∨
      ∃ scheme rest, Foreign t scheme rest ∧ dropSlashes t = r := by
  have hsplit : ∀ {scheme rest}, splitOnce schemeMark t = some (scheme, rest) ↔
      t = scheme ++ (schemeMark ++ rest) ∧ IsBefore schemeMark scheme :=
    Text.splitOnce_eq_some_iff schemeMark_ne_nil
  have hnone : splitOnce schemeMark t = none ↔ ¬HasScheme t :=
    Text.splitOnce_eq_none_iff schemeMark_ne_nil
  constructor
  · intro h
    have hne : t ≠ [] := by
      rintro rfl
      simp [resolveTrimmed] at h
    rw [resolveTrimmed, if_neg (by simpa using hne)] at h
    cases hsome : splitOnce schemeMark t with
    | some parts =>
      obtain ⟨scheme, rest⟩ := parts
      obtain ⟨ht, hbefore⟩ := hsplit.mp hsome
      simp only [hsome] at h
      split_ifs at h with hfile
      · exact .inl ⟨rest, ht ▸ hfile ▸ .file rest, h⟩
      · exact .inr ⟨scheme, rest, ⟨ht, hbefore, hfile⟩, Except.ok.inj h⟩
    | none =>
      have hmark := hnone.mp hsome
      simp only [hsome] at h
      split_ifs at h with hroot hdirectory
      · obtain ⟨path, rfl⟩ := List.head?_eq_some_iff.mp hroot
        exact .inl ⟨_, .absolute path hmark, h⟩
      · exact .inl ⟨_, .relative t hmark hne hroot (not_not.mp hdirectory), h⟩
  · rintro (⟨p, hp, hr⟩ | ⟨scheme, rest, ⟨ht, hbefore, hfile⟩, rfl⟩)
    · cases hp with
      | file path =>
        have hsome := hsplit.mpr ⟨rfl, (by decide : IsBefore schemeMark fileScheme)⟩
        unfold resolveTrimmed
        rw [hsome, if_neg (by simp [fileScheme])]
        exact hr
      | absolute path hmark =>
        unfold resolveTrimmed
        rw [hnone.mpr hmark]
        exact hr
      | relative path hmark hne hroot hdirectory =>
        unfold resolveTrimmed
        rw [hnone.mpr hmark, if_neg (by simpa using hne)]
        simpa [hroot, hdirectory] using hr
    · unfold resolveTrimmed
      rw [hsplit.mpr ⟨ht, hbefore⟩, if_neg (by simp [ht, schemeMark])]
      exact if_neg hfile

theorem resolveTrimmed_file (p d : List Char) :
    resolveTrimmed (fileScheme ++ (schemeMark ++ p)) d = normalize p := by
  have hsome : splitOnce schemeMark (fileScheme ++ (schemeMark ++ p)) = some (fileScheme, p) :=
    (Text.splitOnce_eq_some_iff schemeMark_ne_nil).mpr ⟨rfl, by decide⟩
  rw [resolveTrimmed, if_neg (by simp [fileScheme]), hsome]
  exact if_pos rfl

theorem Foreign.hasScheme (h : Foreign t scheme rest) : HasScheme t :=
  ⟨scheme, rest, by rw [h.eq, List.append_assoc]⟩

/-! ## Resolving again -/

/-- Nothing but slashes follows the scheme. -/
def IsBareScheme (t : List Char) : Prop :=
  ∃ scheme rest, Foreign t scheme rest ∧ ∀ c ∈ rest, c = '/'

theorem beginsPlain_of_isPath (h : IsPath r) : BeginsPlain r := by
  obtain ⟨rest, rfl⟩ := head?_of_isPath h
  intro c hc
  obtain rfl : '/' = c := by simpa using hc
  decide

theorem resolveTrimmed_of_isPath (h : IsPath r) (d : List Char) : resolveTrimmed r d = .ok r := by
  obtain ⟨rest, hrest⟩ := head?_of_isPath h
  have hmark := not_hasScheme_of_isPath h
  refine resolveTrimmed_eq_ok.mpr (.inl ⟨r, ?_, normalize_of_isPath h⟩)
  rw [hrest] at hmark ⊢
  exact .absolute rest hmark

/-- What is behind a scheme keeps its place when slashes at the end are dropped. -/
theorem Foreign.dropSlashes (h : Foreign t scheme rest) (hrest : ¬∀ c ∈ rest, c = '/') :
    Foreign (dropSlashes t) scheme (dropSlashes rest) := by
  refine ⟨?_, h.isBefore, h.ne_file⟩
  have hne : Location.dropSlashes rest ≠ [] := by
    intro hnil
    refine hrest fun c hc => ?_
    simpa using Text.dropEnd_eq_nil_iff.mp hnil c hc
  rw [h.eq, ← List.append_assoc, ← List.append_assoc]
  exact Text.dropEnd_append hne _

/-- Only the colon of the mark is left behind a scheme if there is nothing else. -/
theorem Foreign.dropSlashes_bare (h : Foreign t scheme rest) (hrest : ∀ c ∈ rest, c = '/') :
    Location.dropSlashes t = scheme ++ [':'] := by
  have hslashes : ∀ c ∈ '/' :: '/' :: rest, (c == '/') = true := by simpa using hrest
  have heq : t = (scheme ++ [':']) ++ '/' :: '/' :: rest := by
    rw [h.eq, List.append_assoc]
    rfl
  rw [heq, Location.dropSlashes, Text.dropEnd_append_of_all hslashes, Text.dropEnd_concat]
  rfl

/-- What is left of a bare scheme has no scheme any more. -/
theorem Foreign.not_hasScheme_bare (h : Foreign t scheme rest) : ¬HasScheme (scheme ++ [':']) := by
  intro hmark
  refine h.isBefore (hmark.trans ?_)
  exact ((List.prefix_append_right_inj scheme).mpr ⟨['/'], rfl⟩).isInfix

/-- A shorter text that begins alike does not resolve to the longer one. -/
theorem resolveTrimmed_ne_of_isPrefix (hfront : t <+: r) (hlen : t.length < r.length)
    (d : List Char) : resolveTrimmed t d ≠ .ok r := by
  intro h
  -- both begin with the same character, so that they are paths or are not
  have hhead : ∀ c, t.head? = some c → r.head? = some c := fun c hc => by
    obtain ⟨rest, rfl⟩ := hfront
    rw [List.head?_append, hc]
    rfl
  rcases resolveTrimmed_eq_ok.mp h with ⟨p, hp, hr⟩ | ⟨scheme, rest, -, rfl⟩
  · obtain ⟨tail, htail⟩ := head?_of_isPath (isPath_of_normalize hr)
    cases hp with
    | file path =>
      have := hhead 'f' rfl
      simp [htail] at this
    | absolute path =>
      have := length_le_of_normalize hr
      rw [List.length_cons] at hlen
      omega
    | relative path hmark hne hroot =>
      obtain ⟨c, path, rfl⟩ := List.exists_cons_of_ne_nil hne
      have := hhead c rfl
      rw [htail] at this
      exact hroot this.symm
  · exact absurd (Text.dropEnd_isPrefix _ t).length_le (Nat.not_le.mpr hlen)

/-- Whether a resolved location resolves to itself wherever it is seen from. -/
theorem resolves_again_iff (ht : BeginsPlain t) (h : resolveTrimmed t d = .ok r) :
    (∀ d', resolveTrimmed (trimmed r) d' = .ok r) ↔
      EndsWithout isBlank r ∧ (IsBareScheme t → IsPath r) := by
  have hbegins : BeginsPlain r := by
    rcases resolveTrimmed_eq_ok.mp h with ⟨p, -, hr⟩ | ⟨scheme, rest, -, rfl⟩
    · exact beginsPlain_of_isPath (isPath_of_normalize hr)
    · exact Text.beginsPlain_of_isPrefix (Text.dropEnd_isPrefix _ t) ht
  constructor
  · intro hall
    have hend : EndsWithout isBlank r := by
      by_contra hblank
      refine resolveTrimmed_ne_of_isPrefix ?_ ?_ [] (hall [])
      · rw [Text.trimmed_of_beginsPlain hbegins]
        exact Text.dropEnd_isPrefix isBlank r
      · rw [Text.trimmed_of_beginsPlain hbegins]
        exact Text.length_dropEnd_lt hblank
    refine ⟨hend, ?_⟩
    rintro ⟨scheme, rest, hforeign, hrest⟩
    have hagain := hall []
    rw [Text.trimmed_eq_self hbegins hend] at hagain
    -- seen from no directory, it can only be a path from the root
    have hmark : ¬HasScheme r := by
      rcases resolveTrimmed_eq_ok.mp h with ⟨p, -, hr⟩ | ⟨scheme', rest', hforeign', rfl⟩
      · exact not_hasScheme_of_isPath (isPath_of_normalize hr)
      · rw [hforeign.dropSlashes_bare hrest]
        exact hforeign.not_hasScheme_bare
    rcases resolveTrimmed_eq_ok.mp hagain with ⟨p, -, hr⟩ | ⟨scheme', rest', hforeign', -⟩
    · exact isPath_of_normalize hr
    · exact absurd hforeign'.hasScheme hmark
  · rintro ⟨hend, hbare⟩ d'
    rw [Text.trimmed_eq_self hbegins hend]
    rcases resolveTrimmed_eq_ok.mp h with ⟨p, -, hr⟩ | ⟨scheme, rest, hforeign, rfl⟩
    · exact resolveTrimmed_of_isPath (isPath_of_normalize hr) d'
    · by_cases hrest : ∀ c ∈ rest, c = '/'
      · exact resolveTrimmed_of_isPath (hbare ⟨scheme, rest, hforeign, hrest⟩) d'
      · refine resolveTrimmed_eq_ok.mpr (.inr ⟨scheme, _, hforeign.dropSlashes hrest, ?_⟩)
        exact Text.dropEnd_eq_self_iff.mpr (Text.endsWithout_dropEnd _ t)

theorem isPath_of_resolveTrimmed (h : resolveTrimmed t d = .ok r) (hmark : ¬HasScheme r)
    (hbare : ¬IsBareScheme t) : IsPath r := by
  rcases resolveTrimmed_eq_ok.mp h with ⟨p, -, hr⟩ | ⟨scheme, rest, hforeign, rfl⟩
  · exact isPath_of_normalize hr
  · have hrest : ¬∀ c ∈ rest, c = '/' := fun hrest => hbare ⟨scheme, rest, hforeign, hrest⟩
    exact absurd (hforeign.dropSlashes hrest).hasScheme hmark

/-! ## Other ways of writing a path -/

/-- A way that leads nowhere. -/
inductive IsIdle : List Char → Prop
  | here : IsIdle ['.']
  | back (name : List Char) : IsName name → IsIdle (name ++ ['/', '.', '.'])

/-- The second path is the first one with a slash doubled or a way put in that leads nowhere. -/
inductive Detour : List Char → List Char → Prop
  | slash (front back : List Char) : Detour (front ++ '/' :: back) (front ++ '/' :: '/' :: back)
  | inside (front back : List Char) {idle : List Char} : IsIdle idle →
      Detour (front ++ '/' :: back) (front ++ '/' :: (idle ++ '/' :: back))
  | first (back : List Char) {idle : List Char} : IsIdle idle → back.head? ≠ some '/' →
      Detour back (idle ++ '/' :: back)
  | last (front : List Char) {idle : List Char} : IsIdle idle → front ≠ [] →
      Detour front (front ++ '/' :: idle)
  | alone {idle : List Char} : IsIdle idle → Detour [] idle

/-- The same location written with other slashes and ways that lead nowhere: a path that stays one,
or what stands behind `file://`. -/
inductive Respells : List Char → List Char → Prop
  | path {t t' : List Char} : Relation.EqvGen Detour t t' → ¬HasScheme t → ¬HasScheme t' →
      t' ≠ [] → Respells t t'
  | file {p p' : List Char} : Relation.EqvGen Detour p p' →
      Respells (fileScheme ++ (schemeMark ++ p)) (fileScheme ++ (schemeMark ++ p'))

theorem IsIdle.walk (h : IsIdle idle) : walk taken idle = some taken := by
  cases h with
  | here => rfl
  | back name hname =>
    rw [walk_append, Location.walk, Text.splitOn_of_notMem hname.2.2.2, List.foldlM_cons,
      addSegment_name hname]
    rfl

theorem IsIdle.head? (h : IsIdle idle) (t : List Char) : (idle ++ t).head? ≠ some '/' := by
  cases h with
  | here => simp
  | back name hname =>
    obtain ⟨c, name, rfl⟩ := List.exists_cons_of_ne_nil hname.1
    have hc : c ≠ '/' := fun hc => hname.2.2.2 (hc ▸ List.mem_cons_self)
    simpa using hc

/-- From wherever one goes, a detour ends in the same place. -/
theorem Detour.walk (h : Detour p p') (taken : List (List Char)) :
    walk taken p' = walk taken p := by
  cases h with
  | slash front back =>
    rw [walk_append, walk_append]
    rfl
  | inside front back hidle =>
    rw [walk_append, walk_append]
    refine Option.bind_congr fun taken _ => ?_
    rw [walk_append, hidle.walk, Option.bind_some]
  | first back hidle => rw [walk_append, hidle.walk, Option.bind_some]
  | last front hidle =>
    rw [walk_append]
    exact (Option.bind_congr fun taken _ => hidle.walk).trans (Option.bind_fun_some _)
  | alone hidle =>
    rw [hidle.walk]
    rfl

/-- A detour begins at the root if the path does. -/
theorem Detour.head? (h : Detour p p') : p'.head? = some '/' ↔ p.head? = some '/' := by
  cases h with
  | slash front back => cases front <;> simp
  | inside front back => cases front <;> simp
  | first back hidle hback => exact iff_of_false (hidle.head? _) hback
  | last front hidle hfront =>
    obtain ⟨c, front, rfl⟩ := List.exists_cons_of_ne_nil hfront
    simp
  | alone hidle => exact iff_of_false (by simpa using hidle.head? []) (by simp)

theorem detours_agree (h : Relation.EqvGen Detour p p') :
    (∀ taken, walk taken p' = walk taken p) ∧ (p'.head? = some '/' ↔ p.head? = some '/') := by
  induction h with
  | rel p p' h => exact ⟨h.walk, h.head?⟩
  | refl p => exact ⟨fun _ => rfl, .rfl⟩
  | symm p p' _ ih => exact ⟨fun taken => (ih.1 taken).symm, ih.2.symm⟩
  | trans p q p' _ _ ihp ihq =>
    exact ⟨fun taken => (ihq.1 taken).trans (ihp.1 taken), ihq.2.trans ihp.2⟩

theorem normalize_congr (h : walk [] p' = walk [] p) (hr : normalize p = .ok r) :
    normalize p' = .ok r := by
  obtain ⟨taken, hwalk, hr⟩ := normalize_eq_ok.mp hr
  exact normalize_eq_ok.mpr ⟨taken, h.trans hwalk, hr⟩

theorem Respells.resolveTrimmed (h : Respells t t') (hr : resolveTrimmed t d = .ok r) :
    resolveTrimmed t' d = .ok r := by
  cases h with
  | file hdetours =>
    rw [resolveTrimmed_file] at hr ⊢
    exact normalize_congr ((detours_agree hdetours).1 []) hr
  | path hdetours hmark hmark' hne =>
    obtain ⟨hwalk, hhead⟩ := detours_agree hdetours
    rcases resolveTrimmed_eq_ok.mp hr with ⟨p, hp, hr⟩ | ⟨scheme, rest, hforeign, -⟩
    · cases hp with
      | file => exact absurd ⟨fileScheme, _, List.append_assoc _ _ _⟩ hmark
      | absolute path =>
        obtain ⟨path', rfl⟩ := List.head?_eq_some_iff.mp (hhead.mpr rfl)
        exact resolveTrimmed_eq_ok.mpr
          (.inl ⟨_, .absolute path' hmark', normalize_congr (hwalk []) hr⟩)
      | relative path _ _ hroot hdirectory =>
        refine resolveTrimmed_eq_ok.mpr
          (.inl ⟨_, .relative t' hmark' hne (mt hhead.mp hroot) hdirectory, normalize_congr ?_ hr⟩)
        rw [walk_append, walk_append]
        exact Option.bind_congr fun taken _ => hwalk taken
    · exact absurd hforeign.hasScheme hmark

/-! ## Resolved locations -/

theorem resolve_eq_ok {location directory resolved : String} :
    resolve location directory = .ok resolved ↔
      resolveTrimmed (trimmed location.toList) directory.toList = .ok resolved.toList := by
  unfold resolve
  rw [Pass.except_map_eq_ok]
  constructor
  · rintro ⟨r, hr, rfl⟩
    rwa [String.toList_ofList]
  · intro h
    exact ⟨_, h, String.ofList_toList⟩

/-- A resolved location is the same one for every directory, exactly if it does not end in white
space and, where nothing was left behind the scheme, happens to be a path. Without a scheme it is a
path from the root through names; whichever way of writing the path was taken, it is the same. -/
theorem canonical_of_resolve {location directory resolved : String}
    (h : resolve location directory = .ok resolved) :
    ((∀ other, resolve resolved other = .ok resolved) ↔ EndsWithout isBlank resolved.toList ∧
      (IsBareScheme (trimmed location.toList) → IsPath resolved.toList)) ∧
    (¬HasScheme resolved.toList → ¬IsBareScheme (trimmed location.toList) →
      IsPath resolved.toList) ∧
    ∀ spelling : String, Respells (trimmed location.toList) (trimmed spelling.toList) →
      resolve spelling directory = .ok resolved := by
  have hr := resolve_eq_ok.mp h
  refine ⟨?_, isPath_of_resolveTrimmed hr, fun spelling hspelling => ?_⟩
  · rw [← resolves_again_iff (Text.beginsPlain_trimmed _) hr]
    constructor
    · intro hall d
      have := resolve_eq_ok.mp (hall (String.ofList d))
      rwa [String.toList_ofList] at this
    · intro hall other
      exact resolve_eq_ok.mpr (hall other.toList)
  · exact resolve_eq_ok.mpr (hspelling.resolveTrimmed hr)

/-- A path below the directory that is written in a roundabout way. -/
theorem roundabout_canonical :
    resolve " ./x/..//out " "/work/" = .ok "/work/out" ∧
      (∀ other, resolve "/work/out" other = .ok "/work/out") ∧
      IsPath "/work/out".toList ∧ resolve "out/." "/work/" = .ok "/work/out" := by
  have h : resolve " ./x/..//out " "/work/" = .ok "/work/out" := by decide +kernel
  have hmark : ¬HasScheme (trimmed " ./x/..//out ".toList) := by decide +kernel
  have hbare : ¬IsBareScheme (trimmed " ./x/..//out ".toList) :=
    fun ⟨_, _, hforeign, _⟩ => hmark hforeign.hasScheme
  obtain ⟨hagain, hpath, hspelling⟩ := canonical_of_resolve h
  refine ⟨h, hagain.mpr ⟨by decide +kernel, fun h => absurd h hbare⟩,
    hpath (by decide +kernel) hbare, hspelling "out/." (.path ?_ hmark (by decide +kernel) ?_)⟩
  · -- both spellings are reached from the name alone
    have hx : IsIdle "x/..".toList := .back ['x'] (by decide)
    have hfirst : Detour "out".toList "./out".toList := .first _ .here (by decide)
    have hinside : Detour "./out".toList "./x/../out".toList := .inside ['.'] _ hx
    have hslash : Detour "./x/../out".toList "./x/..//out".toList := .slash "./x/..".toList _
    have hlast : Detour "out".toList "out/.".toList := .last _ .here (by decide)
    have hlong : Relation.EqvGen Detour "out".toList "./x/..//out".toList :=
      .trans _ _ _ (.rel _ _ hfirst) (.trans _ _ _ (.rel _ _ hinside) (.rel _ _ hslash))
    exact .trans _ _ _ (.symm _ _ hlong) (.rel _ _ hlast)
  · decide +kernel

/-- A bare scheme loses its slashes and is taken for a name then, and white space before a slash at
the end is the end of the path then. -/
theorem not_canonical_all : ¬∀ location directory resolved other : String,
    resolve location directory = .ok resolved → resolve resolved other = .ok resolved := by
  intro hall
  have hbare := hall "hdfs://" "/work" "hdfs:" "/work" (by decide +kernel)
  exact absurd hbare (by decide +kernel)

end Dataflow.Location
