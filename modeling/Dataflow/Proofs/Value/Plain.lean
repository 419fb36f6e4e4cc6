import Dataflow.Engine.Records
import Dataflow.Proofs.Json.Reading
import Mathlib.Data.List.Induction

/-!
# Values and their JSON

Writing a value as JSON and reading it again leaves its `normal` form: bags become tuples, bytes
texts, what is no finite number null, and whole numbers get the narrowest width that fits them.
Values that have this form already are `Plain`, and whatever is read is plain (`plain_ofJson`), so
that a second time changes nothing.
-/

namespace Dataflow.Value

/-! ## Maps -/

variable {entries sorted : List (String × Value)} {key : String} {v : Value}

/-- Whether the keys of entries ascend, as those of every map do. -/
def KeysAscend (entries : List (String × Value)) : Prop := entries.Pairwise (·.1 < ·.1)

theorem mem_insertEntry {e : String × Value} : ∀ {entries : List (String × Value)},
    e ∈ insertEntry key v entries → e = (key, v) ∨ e ∈ entries
  | [], h => by simpa [insertEntry] using h
  | (k, w) :: rest, h => by
    unfold insertEntry at h
    split at h
    · simpa using h
    split at h
    · rcases List.mem_cons.mp h with rfl | h
      · exact .inl rfl
      · exact .inr (List.mem_cons_of_mem _ h)
    · rcases List.mem_cons.mp h with rfl | h
      · exact .inr (by simp)
      · exact (mem_insertEntry h).imp id (List.mem_cons_of_mem _)

theorem keysAscend_insertEntry : ∀ {entries : List (String × Value)}, KeysAscend entries →
    KeysAscend (insertEntry key v entries)
  | [], _ => List.pairwise_singleton _ _
  | (k, w) :: rest, h => by
    obtain ⟨hfirst, hrest⟩ := List.pairwise_cons.mp h
    unfold insertEntry
    split
    · next hlt =>
      refine List.pairwise_cons.mpr ⟨List.forall_mem_cons.mpr ⟨hlt, fun e he => ?_⟩, h⟩
      exact String.lt_trans hlt (hfirst e he)
    split
    · next heq =>
      exact List.pairwise_cons.mpr ⟨fun e he => heq ▸ hfirst e he, hrest⟩
    · next hlt hne =>
      refine List.pairwise_cons.mpr ⟨fun e he => ?_, keysAscend_insertEntry hrest⟩
      rcases mem_insertEntry he with rfl | he
      · exact Std.lt_of_le_of_ne (String.not_lt.mp hlt) (Ne.symm hne)
      · exact hfirst e he

theorem insertEntry_of_below : ∀ {entries : List (String × Value)}, (∀ e ∈ entries, e.1 < key) →
    insertEntry key v entries = entries ++ [(key, v)]
  | [], _ => rfl
  | (k, w) :: rest, h => by
    obtain ⟨hk, hrest⟩ := List.forall_mem_cons.mp h
    rw [insertEntry, if_neg (String.lt_asymm hk), if_neg (String.ne_of_lt hk).symm,
      insertEntry_of_below hrest]
    rfl

theorem sortEntries_concat :
    sortEntries (entries ++ [(key, v)]) = insertEntry key v (sortEntries entries) :=
  List.foldl_append

theorem keysAscend_sortEntries (entries : List (String × Value)) :
    KeysAscend (sortEntries entries) := by
  induction entries using List.reverseRecOn with
  | nil => exact List.Pairwise.nil
  | append_singleton entries e ih =>
    rw [sortEntries_concat]
    exact keysAscend_insertEntry ih

theorem mem_of_mem_sortEntries {e : String × Value} (h : e ∈ sortEntries entries) :
    e ∈ entries := by
  induction entries using List.reverseRecOn with
  | nil => exact h
  | append_singleton entries e' ih =>
    rw [sortEntries_concat] at h
    rcases mem_insertEntry h with rfl | h
    · simp
    · exact List.mem_append_left _ (ih h)

/-- Entries whose keys ascend are sorted. -/
theorem sortEntries_of_keysAscend (h : KeysAscend entries) : sortEntries entries = entries := by
  induction entries using List.reverseRecOn with
  | nil => rfl
  | append_singleton entries e ih =>
    obtain ⟨hentries, -, hbelow⟩ := List.pairwise_append.mp h
    rw [sortEntries_concat, ih hentries]
    exact insertEntry_of_below fun e' he' => hbelow e' he' e (by simp)

/-! ## Plain values -/

mutual

/-- Whether a value is told from all others by its JSON: it is made of nulls, truth values, whole
numbers as narrow as they can be, finite numbers, texts, maps and tuples. -/
def Plain : Value → Prop
  | .null | .boolean _ | .int _ | .charArray _ => True
  | .long i => fitsInt i.toInt = false
  | .double x => x.isFinite
  | .map entries => KeysAscend entries ∧ EntriesPlain entries
  | .tuple items => RowPlain items
  | .float _ | .byteArray _ | .bag _ => False
termination_by structural v => v

def EntriesPlain : List (String × Value) → Prop
  | [] => True
  | (_, v) :: rest => Plain v ∧ EntriesPlain rest
termination_by structural entries => entries

def RowPlain : List Value → Prop
  | [] => True
  | v :: rest => Plain v ∧ RowPlain rest
termination_by structural row => row

end

theorem entriesPlain_iff : EntriesPlain entries ↔ ∀ e ∈ entries, e.2.Plain := by
  induction entries with
  | nil => simp [EntriesPlain]
  | cons e rest ih => rw [EntriesPlain, ih, List.forall_mem_cons]

theorem rowPlain_iff {row : Row} : RowPlain row ↔ ∀ v ∈ row, v.Plain := by
  induction row with
  | nil => simp [RowPlain]
  | cons v rest ih => rw [RowPlain, ih, List.forall_mem_cons]

/-! ## From values to JSON and back -/

theorem inRange_ofDouble (x : Double) : (Json.ofDouble x).InRange := by
  unfold Json.ofDouble
  split
  · next h => exact h
  · trivial

mutual

/-- The numbers in the JSON of a value can be those of a text. -/
theorem inRange_toJson : ∀ v : Value, v.toJson.InRange
  | .null => trivial
  | .boolean _ => trivial
  | .int i => by
    have hlow := i.le_toInt
    have hhigh := i.toInt_lt
    exact ⟨by omega, by omega⟩
  | .long i => by
    have hlow := i.le_toInt
    have hhigh := i.toInt_lt
    exact ⟨by omega, by omega⟩
  | .float x => inRange_ofDouble _
  | .double x => inRange_ofDouble x
  | .charArray _ => trivial
  | .byteArray _ => trivial
  | .map entries => membersInRange_entriesToJson entries
  | .tuple items => itemsInRange_rowToJson items
  | .bag rows => itemsInRange_bagToJson rows

theorem membersInRange_entriesToJson : ∀ entries : List (String × Value),
    Json.MembersInRange (entriesToJson entries)
  | [] => trivial
  | (_, v) :: rest => ⟨inRange_toJson v, membersInRange_entriesToJson rest⟩

theorem itemsInRange_rowToJson : ∀ row : List Value, Json.ItemsInRange (rowToJson row)
  | [] => trivial
  | v :: rest => ⟨inRange_toJson v, itemsInRange_rowToJson rest⟩

theorem itemsInRange_bagToJson : ∀ rows : List (List Value), Json.ItemsInRange (bagToJson rows)
  | [] => trivial
  | row :: rest => ⟨itemsInRange_rowToJson row, itemsInRange_bagToJson rest⟩

end

theorem fitsInt_iff {i : Int} : fitsInt i ↔ -2 ^ 31 ≤ i ∧ i < 2 ^ 31 := by
  simp only [fitsInt, fitsSigned, Bool.and_eq_true, decide_eq_true_eq]
  rfl

theorem fitsLong_iff {i : Int} : fitsLong i ↔ -2 ^ 63 ≤ i ∧ i < 2 ^ 63 := by
  simp only [fitsLong, fitsSigned, Bool.and_eq_true, decide_eq_true_eq]
  rfl

theorem plain_ofInt {i : Int} (h : -2 ^ 63 ≤ i ∧ i < 2 ^ 64) : (ofInt i).Plain := by
  unfold ofInt
  split
  · trivial
  split
  · next hint hlong =>
    obtain ⟨hlow, hhigh⟩ := fitsLong_iff.mp hlong
    rw [Plain, Int64.toInt_ofInt_of_le hlow hhigh]
    simpa using hint
  · exact Binary.isFinite_ofInt (by omega)

mutual

/-- What JSON stands for is plain. -/
theorem plain_ofJson : ∀ {j : Json}, j.InRange → (ofJson j).Plain
  | .null, _ => trivial
  | .unheld, _ => trivial
  | .bool _, _ => trivial
  | .int _, h => plain_ofInt h
  | .double _, h => h
  | .string _, _ => trivial
  | .array _, h => rowPlain_rowOfJson h
  | .object members, h => by
    refine ⟨keysAscend_sortEntries _, entriesPlain_iff.mpr fun e he => ?_⟩
    exact entriesPlain_iff.mp (entriesPlain_entriesOfJson h) e (mem_of_mem_sortEntries he)

theorem rowPlain_rowOfJson : ∀ {items : List Json}, Json.ItemsInRange items →
    RowPlain (rowOfJson items)
  | [], _ => trivial
  | _ :: _, h => ⟨plain_ofJson h.1, rowPlain_rowOfJson h.2⟩

theorem entriesPlain_entriesOfJson : ∀ {members : List (String × Json)},
    Json.MembersInRange members → EntriesPlain (entriesOfJson members)
  | [], _ => trivial
  | _ :: _, h => ⟨plain_ofJson h.1, entriesPlain_entriesOfJson h.2⟩

end

/-- What is left of a value that is written and read again. -/
def normal (v : Value) : Value := ofJson v.toJson

mutual

theorem normal_of_plain : ∀ {v : Value}, v.Plain → v.normal = v
  | .null, _ => rfl
  | .boolean _, _ => rfl
  | .int i, _ => by
    have hfits : fitsInt i.toInt := fitsInt_iff.mpr ⟨i.le_toInt, i.toInt_lt⟩
    rw [normal, toJson, ofJson, ofInt, if_pos hfits, Int32.ofInt_toInt]
  | .long i, h => by
    have hfits : fitsLong i.toInt := fitsLong_iff.mpr ⟨i.le_toInt, i.toInt_lt⟩
    rw [normal, toJson, ofJson, ofInt, if_neg (Bool.eq_false_iff.mp h), if_pos hfits,
      Int64.ofInt_toInt]
  | .double x, h => by
    rw [normal, toJson, Json.ofDouble, if_pos (show x.isFinite = true from h), ofJson]
  | .charArray _, _ => rfl
  | .map entries, h => by
    rw [normal, toJson, ofJson, mapOf, entriesOfJson_entriesToJson h.2,
      sortEntries_of_keysAscend h.1]
  | .tuple items, h => by
    rw [normal, toJson, ofJson, rowOfJson_rowToJson_of_plain h]

theorem entriesOfJson_entriesToJson : ∀ {entries : List (String × Value)}, EntriesPlain entries →
    entriesOfJson (entriesToJson entries) = entries
  | [], _ => rfl
  | (k, v) :: rest, h => by
    rw [entriesToJson, entriesOfJson, entriesOfJson_entriesToJson h.2, ← normal,
      normal_of_plain h.1]

theorem rowOfJson_rowToJson_of_plain : ∀ {row : List Value}, RowPlain row →
    rowOfJson (rowToJson row) = row
  | [], _ => rfl
  | v :: rest, h => by
    rw [rowToJson, rowOfJson, rowOfJson_rowToJson_of_plain h.2, ← normal, normal_of_plain h.1]

end

theorem plain_normal (v : Value) : v.normal.Plain := plain_ofJson (inRange_toJson v)

theorem rowOfJson_rowToJson : ∀ row : Row, rowOfJson (rowToJson row) = row.map normal
  | [] => rfl
  | v :: rest => by
    rw [rowToJson, rowOfJson, rowOfJson_rowToJson rest]
    rfl

end Dataflow.Value
