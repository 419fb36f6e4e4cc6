import Dataflow.Proofs.Json.Line
import Dataflow.Proofs.Json.RoundTrip
import Dataflow.Proofs.Text.Parts
import Dataflow.Proofs.Value.Plain

/-!
# Records that are written and read

A file holds a record in each line. No text is split into two lines by that, since line ends inside
of texts are escaped, and no line is blank, since each begins with a bracket; so there are as many
records to read as were written. As far as the reader gets back the JSON of each line (`ReadsBack`),
which it does unless a record is nested too deeply or a number is read as another one, what is read
are the normal forms of the values, and these are kept from then on (`round_trip`).
-/

namespace Dataflow

/-! ## Lines -/

namespace Text

/-- Whether a text can be a line: it has no line end and does not end with a part of one. -/
def IsLine (line : List Char) : Prop := '\n' ∉ line ∧ line.getLast? ≠ some '\r'

theorem splitOn_flatMap : ∀ {ls : List (List Char)}, (∀ line ∈ ls, IsLine line) →
    splitOn '\n' (ls.flatMap (· ++ ['\n'])) = ls ++ [[]]
  | [], _ => rfl
  | line :: ls, h => by
    obtain ⟨hline, hls⟩ := List.forall_mem_cons.mp h
    rw [List.flatMap_cons, List.append_assoc, List.singleton_append, splitOn_append hline.1,
      splitOn_flatMap hls]
    rfl

/-- The lines of a text are those it was put together of. -/
theorem lines_flatMap {ls : List (List Char)} (h : ∀ line ∈ ls, IsLine line) :
    lines (ls.flatMap (· ++ ['\n'])) = ls := by
  have hkept :
      ls.map (fun line => if line.getLast? = some '\r' then line.dropLast else line) = ls :=
    (List.map_congr_left fun line hline => if_neg (h line hline).2).trans (List.map_id ls)
  unfold lines
  rw [splitOn_flatMap h]
  simp [hkept]

end Text

namespace Records

open Value

variable {records : List Row} {row : Row}

/-! ## The lines of records -/

theorem lineOf_toList (row : Row) : ∃ inner, (lineOf row).toList = '[' :: inner ++ [']'] := by
  refine ⟨(String.intercalate "," (Json.itemTexts (rowToJson row))).toList, ?_⟩
  rw [lineOf, Json.text, String.toList_append, String.toList_append]
  rfl

/-- Whatever texts there are in a record, it takes one line. -/
theorem isLine_lineOf (row : Row) : Text.IsLine (lineOf row).toList := by
  refine ⟨fun h => absurd (Json.isVisible_text _ _ h) (by decide), ?_⟩
  obtain ⟨inner, hline⟩ := lineOf_toList row
  rw [hline, List.getLast?_concat]
  decide

theorem not_blank_lineOf (row : Row) : ((lineOf row).toList.all Text.isBlank) = false := by
  obtain ⟨inner, hline⟩ := lineOf_toList row
  rw [hline]
  rfl

theorem contentLines_toLines (records : List Row) :
    contentLines (toLines records).toList = records.map fun row => (lineOf row).toList := by
  have htext : (toLines records).toList =
      (records.map fun row => (lineOf row).toList).flatMap (· ++ ['\n']) := by
    simp [toLines, String.toList_join, List.flatMap_map]
  have hlines : ∀ line ∈ records.map fun row => (lineOf row).toList, Text.IsLine line :=
    List.forall_mem_map.mpr fun row _ => isLine_lineOf row
  rw [contentLines, htext, Text.lines_flatMap hlines, List.filter_eq_self]
  exact List.forall_mem_map.mpr fun row _ => by rw [not_blank_lineOf]; rfl

/-! ## Reading what was written -/

/-- Whether the reader gets back the JSON of a record from its line. -/
def ReadsBack (row : Row) : Prop :=
  Json.read (lineOf row).toList = .ok (.array (rowToJson row))

/-- It does if the record is not nested too deeply and its numbers are read as they were. -/
theorem readsBack_of_legible (h : (Json.array (rowToJson row)).Legible Json.depthLimit) :
    ReadsBack row := Json.read_text h

theorem ofLine_lineOf (h : ReadsBack row) (number : Nat) :
    ofLine number (lineOf row).toList = .ok (row.map normal) := by
  rw [ofLine, h, ← rowOfJson_rowToJson]

theorem mapM_ofLine : ∀ {records : List Row} (start : Nat), (∀ row ∈ records, ReadsBack row) →
    ((records.map fun row => (lineOf row).toList).zipIdx start).mapM
      (fun (line, i) => ofLine (i + 1) line) = .ok (records.map (·.map normal))
  | [], _, _ => rfl
  | row :: records, start, h => by
    obtain ⟨hrow, hrecords⟩ := List.forall_mem_cons.mp h
    rw [List.map_cons, List.zipIdx_cons, List.mapM_cons, mapM_ofLine (start + 1) hrecords]
    dsimp only
    rw [ofLine_lineOf hrow]
    rfl

theorem ofLines_toLines (h : ∀ row ∈ records, ReadsBack row) :
    ofLines (toLines records) = .ok (records.map (·.map normal)) := by
  rw [ofLines, contentLines_toLines]
  exact mapM_ofLine 0 h

/-- What is read is plain. -/
theorem plain_of_ofLines {text : String} (h : ofLines text = .ok records) :
    ∀ row ∈ records, ∀ v ∈ row, v.Plain := by
  intro row hrow
  obtain ⟨⟨line, i⟩, -, hline⟩ := Pass.exists_of_mem_mapM h row hrow
  dsimp only at hline
  unfold ofLine at hline
  split at hline
  · next hread =>
    obtain rfl := Except.ok.inj hline
    exact rowPlain_iff.mp (rowPlain_rowOfJson (Json.inRange_of_read hread))
  · cases hline
  · cases hline

/-! ## Writing what was read -/

/-- A file that is read and written again a number of times. -/
def rewritten : Nat → String → RunResult String
  | 0, text => .ok text
  | n + 1, text => do rewritten n (toLines (← ofLines text))

theorem rewritten_of_ofLines {text : String} (h : ofLines text = .ok records)
    (htext : toLines records = text) : ∀ n, rewritten n text = .ok text
  | 0 => rfl
  | n + 1 => by
    rw [rewritten, h, Pass.except_ok_bind, htext]
    exact rewritten_of_ofLines h htext n

/-- Records are read as they were written, up to what JSON does not hold of their values. That is
left out by the first time, so that records that were read once are kept by all further ones. The
reader is only asked to read the lines that are written; that they are lines needs no condition. -/
theorem round_trip :
    (∀ records : List Row, (∀ row ∈ records, ReadsBack row) →
        ofLines (toLines records) = .ok (records.map (·.map normal))) ∧
      (∀ v : Value, v.normal.normal = v.normal) ∧
      (∀ v : Value, v.Plain → v.normal = v) ∧
      ∀ (text : String) (records : List Row), ofLines text = .ok records →
        (∀ row ∈ records, ReadsBack row) →
        ofLines (toLines records) = .ok records ∧
          ∀ n, rewritten n (toLines records) = .ok (toLines records) := by
  refine ⟨fun records => ofLines_toLines, fun v => normal_of_plain (plain_normal v),
    fun v => normal_of_plain, fun text records htext hread => ?_⟩
  have hplain := plain_of_ofLines htext
  have hnormal : records.map (·.map normal) = records :=
    (List.map_congr_left fun row hrow => (List.map_congr_left fun v hv =>
      normal_of_plain (hplain row hrow v hv)).trans (List.map_id row)).trans (List.map_id records)
  have hagain : ofLines (toLines records) = .ok records := by rw [ofLines_toLines hread, hnormal]
  exact ⟨hagain, rewritten_of_ofLines hagain rfl⟩

/-- Records with a text of two lines, a bag, bytes that are no text, and numbers of all kinds. -/
def mixedRecords : List Row :=
  [[.charArray "a\nb", .long 5, .bag [[.byteArray [255, 104]], []]],
    [.map [("k", .double (.ofInt (10 ^ 16))), ("l", .float (.nan false))], .null]]

/-- What is read of them. -/
def readRecords : List Row :=
  [[.charArray "a\nb", .int 5, .tuple [.tuple [.charArray "\ufffdh"], .tuple []]],
    [.map [("k", .double (.ofInt (10 ^ 16))), ("l", .null)], .null]]

theorem mixedRecords_round_trip : ofLines (toLines mixedRecords) = .ok readRecords ∧
    ofLines (toLines readRecords) = .ok readRecords := by
  have hread : ∀ row ∈ mixedRecords ++ readRecords, ReadsBack row := by
    simp only [mixedRecords, readRecords, List.cons_append, List.nil_append, List.forall_mem_cons]
    refine ⟨?_, ?_, ?_, ?_, by simp⟩
    · exact readsBack_of_legible ⟨by decide, trivial, ⟨by decide, by decide⟩,
        ⟨by decide, ⟨by decide, trivial, trivial⟩, ⟨by decide, trivial⟩, trivial⟩, trivial⟩
    · exact readsBack_of_legible ⟨by decide, ⟨by decide, rfl, trivial, trivial⟩, trivial, trivial⟩
    · exact readsBack_of_legible ⟨by decide, trivial, ⟨by decide, by decide⟩,
        ⟨by decide, ⟨by decide, trivial, trivial⟩, ⟨by decide, trivial⟩, trivial⟩, trivial⟩
    · exact readsBack_of_legible ⟨by decide, ⟨by decide, rfl, trivial, trivial⟩, trivial, trivial⟩
  obtain ⟨hrecords, -, -, hagain⟩ := round_trip
  have hfirst := hrecords mixedRecords fun row hrow => hread row (List.mem_append_left _ hrow)
  have hbytes : Text.ofBytes [255, 104] = "\ufffdh" := by decide +kernel
  have hnormal : mixedRecords.map (·.map normal) = readRecords := by
    rw [readRecords, ← hbytes]
    rfl
  rw [hnormal] at hfirst
  exact ⟨hfirst, (hagain _ _ hfirst fun row hrow => hread row (List.mem_append_right _ hrow)).1⟩

end Records

end Dataflow
