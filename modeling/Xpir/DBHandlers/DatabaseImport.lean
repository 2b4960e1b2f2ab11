import Xpir.DBHandlers.AggregatedStream
import Xpir.Foundations.Rounding

/-!
# Import of a database

The groups of streams are read one after the other into a single buffer. It is cleared
before the first group only, and an element of the database is made from what it holds after
each group. The elements that there is no group for are filled up.

If the last group is incomplete, then its last stream is erased, and the last slot still
holds a stream of the group before. All other streams get into their slots.
-/

namespace Xpir

/-- The streams of a database, and the part of each of them that is imported. -/
structure StreamDatabase where
  nbStream : ℕ
  maxFileBytesize : ℕ
  alpha : ℕ
  offset : ℕ
  bytesPerFile : ℕ
  alpha_pos : 0 < alpha
  alpha_lt : alpha < 2 ^ 32
  nbStream_pos : 0 < nbStream
  /-- Streams and groups are numbered by an `int`. -/
  nbStream_lt : nbStream < 2 ^ 31
  offset_lt : offset < maxFileBytesize
  bytes_pos : 0 < bytesPerFile

namespace StreamDatabase

variable (streams : StreamDatabase)

def group (streamNb : ℕ) (inside : streamNb * streams.alpha < streams.nbStream) : StreamGroup where
  nbStream := streams.nbStream
  maxFileBytesize := streams.maxFileBytesize
  alpha := streams.alpha
  streamNb := streamNb
  offset := streams.offset
  bytesPerFile := streams.bytesPerFile
  alpha_pos := streams.alpha_pos
  inside := inside
  offset_lt := streams.offset_lt
  bytes_pos := streams.bytes_pos
  nbStream_lt := streams.nbStream_lt.trans (by decide)

def fileByteSize : ℕ := min streams.bytesPerFile (streams.maxFileBytesize - streams.offset)

/-- The bytes of an element, which is a group of streams. -/
def elementBytes : ℕ := streams.fileByteSize * streams.alpha

/-- The number of groups, which the server computes with floating point numbers. -/
def nbruns : ℕ := ⌈toDouble (toDouble streams.nbStream / toDouble streams.alpha)⌉₊

theorem nbruns_eq : streams.nbruns = streams.nbStream ⌈/⌉ streams.alpha :=
  natCeil_roundTo_quotient (streams.nbStream_lt.trans (by decide))
    (streams.alpha_lt.trans (by decide)) streams.alpha_pos

theorem lt_nbruns_iff (i : ℕ) : i < streams.nbruns ↔ i * streams.alpha < streams.nbStream := by
  rw [nbruns_eq, ← not_le, ceilDiv_le_iff_le_mul streams.alpha_pos, not_le, Nat.mul_comm]

theorem nbruns_le : streams.nbruns ≤ streams.nbStream := by
  rw [nbruns_eq, ceilDiv_le_iff_le_mul streams.alpha_pos]
  exact Nat.le_mul_of_pos_left _ streams.alpha_pos

/-- No stream of the last group is missing. -/
def Even : Prop := streams.alpha ∣ streams.nbStream

end StreamDatabase

namespace DBDirectoryProcessor

variable (db : DBDirectoryProcessor) (streams : StreamDatabase)

/-- A byte of a stream, whatever group it belongs to. -/
def fileByte (stream position : ℕ) : UInt8 :=
  if db.filesSplitting then
    db.realFile.byteAt (stream * streams.maxFileBytesize + position)
  else (db.files stream).byteAt position

/-- The slots of the buffer after a group: at the end of an incomplete one they are wrong. -/
def slotByte (i slot byte : ℕ) : UInt8 :=
  if (i + 1) * streams.alpha ≤ streams.nbStream ∨
      i * streams.alpha + slot + 1 < streams.nbStream then
    db.fileByte streams (i * streams.alpha + slot) (streams.offset + byte)
  else if slot + 1 < streams.alpha then 0
  else if i = 0 then 0
  else db.fileByte streams (i * streams.alpha - 1) (streams.offset + byte)

/-- A buffer into which a group has been read. -/
def HoldsGroup (i : ℕ) (rawBits : ℕ → UInt8) : Prop :=
  ∀ slot < streams.alpha, ∀ byte < streams.fileByteSize,
    rawBits (slot * streams.fileByteSize + byte) = db.slotByte streams i slot byte

section Model

/-- The variables of the loop over the groups. -/
structure ImportState (Element : Type) where
  rawBits : ℕ → UInt8
  input_data : ℕ → Element

variable {Element : Type} (deserialize : (ℕ → UInt8) → Element)

/-- Read a group into the buffer, and make an element of it. -/
def importElement (fuel i : ℕ) (state : ImportState Element) : Option (ImportState Element) :=
  if inside : i * streams.alpha < streams.nbStream then
    (db.readAggregatedStream (streams.group i inside) fuel state.rawBits).map fun rawBits =>
      { rawBits := rawBits
        input_data := Function.update state.input_data i (deserialize rawBits) }
  else none

/-- The elements of the database; those after the last group are filled up. -/
def importDataNFL (padding : Element) (fuel : ℕ) : Option (ℕ → Element) :=
  (counterLoop (2 ^ 31) fuel streams.nbruns (db.importElement streams deserialize fuel)
    { rawBits := fun _ => 0
      input_data := fun _ => padding }).map ImportState.input_data

end Model

section Groups

variable {db streams} {i : ℕ} {rawBits filled : ℕ → UInt8}

/-- The buffer after a group, if the last slot held what the group before left. -/
theorem holdsGroup_zeroPadding (inside : i * streams.alpha < streams.nbStream)
    (before : if i = 0 then rawBits = fun _ => 0 else db.HoldsGroup streams (i - 1) rawBits)
    (slots : ∀ slot < streams.alpha, ∀ byte < streams.fileByteSize,
      filled (slot * streams.fileByteSize + byte) =
        if (streams.group i inside).startStream + slot ≤ (streams.group i inside).endStream then
          db.fileByte streams ((streams.group i inside).startStream + slot) (streams.offset + byte)
        else rawBits (slot * streams.fileByteSize + byte)) :
    db.HoldsGroup streams i ((streams.group i inside).zeroPadding
      (streams.group i inside).paddingStreams filled) := by
  have alpha_pos := streams.alpha_pos
  have nbStream_pos := streams.nbStream_pos
  have start_eq : (streams.group i inside).startStream = i * streams.alpha := rfl
  have last_eq : (streams.group i inside).endStream =
      min (i * streams.alpha + streams.alpha - 1) (streams.nbStream - 1) := rfl
  have padding_eq : (streams.group i inside).paddingStreams =
      if streams.nbStream ≤ i * streams.alpha + streams.alpha then
        i * streams.alpha + streams.alpha - streams.nbStream
      else 0 := rfl
  intro slot slot_lt byte byte_lt
  have slot_eq := slots slot slot_lt byte byte_lt
  rw [slotByte, Nat.succ_mul]
  by_cases full : i * streams.alpha + streams.alpha ≤ streams.nbStream
  · have none : (streams.group i inside).paddingStreams = 0 := by
      rw [padding_eq]
      split <;> omega
    rw [none, StreamGroup.zeroPadding, if_neg (not_not.mpr rfl), slot_eq, if_pos (Or.inl full),
      start_eq, last_eq, if_pos (by omega)]
  · have padded : (streams.group i inside).zeroPadding (streams.group i inside).paddingStreams filled
        (slot * streams.fileByteSize + byte) =
          if streams.nbStream - 1 - i * streams.alpha ≤ slot ∧ slot < streams.alpha - 1 then 0
          else filled (slot * streams.fileByteSize + byte) :=
      (streams.group i inside).zeroPadding_apply full byte_lt
    rw [start_eq, last_eq] at slot_eq
    rw [padded]
    by_cases read : i * streams.alpha + slot + 1 < streams.nbStream
    · rw [if_neg (by omega), slot_eq, if_pos (by omega), if_pos (Or.inr read)]
    · rw [if_neg (not_or.mpr ⟨full, read⟩)]
      by_cases erased : slot + 1 < streams.alpha
      · rw [if_pos (by omega), if_pos erased]
      · rw [if_neg (by omega), slot_eq, if_neg (by omega), if_neg erased]
        split at before
        next first => rw [if_pos first, before]
        next later =>
          rw [if_neg later, before slot slot_lt byte byte_lt, slotByte, Nat.sub_add_cancel
            (Nat.pos_of_ne_zero later), if_pos (Or.inl inside.le)]
          congr 1
          have group_eq := Nat.sub_one_mul i streams.alpha
          have alpha_le := Nat.le_mul_of_pos_left streams.alpha (Nat.pos_of_ne_zero later)
          omega

/-- What the loop has imported after some groups, and what it finds in the buffer. -/
structure Imported (db : DBDirectoryProcessor) (streams : StreamDatabase) {Element : Type}
    (deserialize : (ℕ → UInt8) → Element) (padding : Element) (done : ℕ)
    (state : ImportState Element) : Prop where
  buffer : if done = 0 then state.rawBits = fun _ => 0
    else db.HoldsGroup streams (done - 1) state.rawBits
  elements : ∀ i < done, ∃ rawBits, db.HoldsGroup streams i rawBits ∧
    state.input_data i = deserialize rawBits
  fills : ∀ i, done ≤ i → state.input_data i = padding

variable {Element : Type} {deserialize : (ℕ → UInt8) → Element} {padding : Element}

theorem Imported.step {state : ImportState Element} {fuel : ℕ}
    (imported : Imported db streams deserialize padding i state) (i_lt : i < streams.nbruns)
    (enough : streams.fileByteSize + streams.nbStream + 1 < fuel) :
    ∃ next, db.importElement streams deserialize fuel i state = some next ∧
      Imported db streams deserialize padding (i + 1) next := by
  have inside := (streams.lt_nbruns_iff i).mp i_lt
  have nbStream_pos := streams.nbStream_pos
  have nbStream_lt := streams.nbStream_lt
  have last_le : (streams.group i inside).endStream ≤ streams.nbStream - 1 := min_le_right _ _
  have size_eq : (streams.group i inside).fileByteSize = streams.fileByteSize := rfl
  rcases readAggregatedStream_eq db state.rawBits fuel
    (by omega : (streams.group i inside).endStream + 1 < 2 ^ 31) (by omega) with
    ⟨filled, reads, slots⟩
  have holds := holdsGroup_zeroPadding inside imported.buffer slots
  let rawBits := (streams.group i inside).zeroPadding (streams.group i inside).paddingStreams filled
  refine ⟨⟨rawBits, Function.update state.input_data i (deserialize rawBits)⟩, ?_, ⟨?_, ?_, ?_⟩⟩
  · rw [importElement, dif_pos inside, reads, Option.map_some]
  · rw [if_neg (Nat.succ_ne_zero i), Nat.add_sub_cancel]
    exact holds
  · intro j j_lt
    dsimp only
    rcases Nat.lt_succ_iff_lt_or_eq.mp j_lt with earlier | rfl
    · rw [Function.update_of_ne earlier.ne]
      exact imported.elements j earlier
    · exact ⟨rawBits, holds, Function.update_self _ _ _⟩
  · intro j j_ge
    dsimp only
    rw [Function.update_of_ne (by omega)]
    exact imported.fills j (by omega)

/-- The import ends; each element comes from a buffer that holds its group. -/
theorem importDataNFL_eq (db : DBDirectoryProcessor) (streams : StreamDatabase)
    (deserialize : (ℕ → UInt8) → Element) (padding : Element) {fuel : ℕ}
    (enough : streams.fileByteSize + streams.nbStream + 1 < fuel) :
    ∃ data, db.importDataNFL streams deserialize padding fuel = some data ∧
      (∀ i < streams.nbruns, ∃ rawBits, db.HoldsGroup streams i rawBits ∧
        data i = deserialize rawBits) ∧
      ∀ i, streams.nbruns ≤ i → data i = padding := by
  have nbruns_le := streams.nbruns_le
  have nbStream_lt := streams.nbStream_lt
  rcases counterLoop_total (2 ^ 31) fuel streams.nbruns (db.importElement streams deserialize fuel)
    { rawBits := fun _ => 0
      input_data := fun _ => padding }
    (Imported db streams deserialize padding)
    ⟨rfl, fun i i_lt => absurd i_lt (Nat.not_lt_zero i), fun _ _ => rfl⟩
    (fun _ _ i_lt imported => imported.step i_lt enough) (by omega) (by omega) with
    ⟨final, runs, imported⟩
  exact ⟨final.input_data, by rw [importDataNFL, runs, Option.map_some], imported.elements,
    imported.fills⟩

end Groups

section Exactness

/-- The last stream is zero, and so is the one that an incomplete last group takes over. -/
def HarmlessEnd : Prop :=
  (∀ byte < streams.fileByteSize,
    db.fileByte streams (streams.nbStream - 1) (streams.offset + byte) = 0) ∧
  (streams.nbStream < streams.alpha ∨ ∀ byte < streams.fileByteSize,
    db.fileByte streams (streams.nbStream / streams.alpha * streams.alpha - 1)
      (streams.offset + byte) = 0)

variable {db streams}

/-- The slots are right in all groups but an incomplete one. -/
theorem slotByte_of_full {i slot byte : ℕ} (slot_lt : slot < streams.alpha)
    (full : i * streams.alpha + streams.alpha ≤ streams.nbStream) :
    db.slotByte streams i slot byte = if i * streams.alpha + slot < streams.nbStream then
      db.fileByte streams (i * streams.alpha + slot) (streams.offset + byte) else 0 := by
  rw [slotByte, Nat.succ_mul, if_pos (Or.inl full), if_pos (by omega)]

/-- Nothing is lost of an incomplete last group exactly if it is harmless. -/
theorem slotByte_last_iff (odd : ¬ streams.Even) :
    (∀ slot < streams.alpha, ∀ byte < streams.fileByteSize,
      db.slotByte streams (streams.nbStream / streams.alpha) slot byte =
        if streams.nbStream / streams.alpha * streams.alpha + slot < streams.nbStream then
          db.fileByte streams (streams.nbStream / streams.alpha * streams.alpha + slot)
            (streams.offset + byte)
        else 0) ↔ db.HarmlessEnd streams := by
  have alpha_pos := streams.alpha_pos
  have split_eq := Nat.div_add_mod' streams.nbStream streams.alpha
  have rest_lt := Nat.mod_lt streams.nbStream alpha_pos
  have rest_pos : 0 < streams.nbStream % streams.alpha :=
    Nat.pos_of_ne_zero fun zero => odd (Nat.dvd_of_mod_eq_zero zero)
  have first_iff : streams.nbStream / streams.alpha = 0 ↔ streams.nbStream < streams.alpha :=
    Nat.div_eq_zero_iff_lt alpha_pos
  simp only [slotByte, Nat.succ_mul, HarmlessEnd]
  generalize streams.nbStream / streams.alpha = last at *
  have incomplete : ¬ last * streams.alpha + streams.alpha ≤ streams.nbStream := by omega
  constructor
  · intro right
    constructor
    · intro byte byte_lt
      have erased := right (streams.nbStream - 1 - last * streams.alpha) (by omega) byte byte_lt
      rw [if_neg (by omega), if_pos (by omega), if_pos (by omega),
        show last * streams.alpha + (streams.nbStream - 1 - last * streams.alpha) =
          streams.nbStream - 1 by omega] at erased
      exact erased.symm
    · rw [← first_iff, or_iff_not_imp_left]
      intro later byte byte_lt
      have stale := right (streams.alpha - 1) (by omega) byte byte_lt
      rwa [if_neg (by omega), if_neg (by omega), if_neg later, if_neg (by omega)] at stale
  · rintro ⟨erased, stale⟩ slot slot_lt byte byte_lt
    rcases lt_trichotomy (last * streams.alpha + slot + 1) streams.nbStream with
      before | at_last | after
    · rw [if_pos (Or.inr before), if_pos (by omega)]
    · rw [if_neg (by omega), if_pos (by omega), if_pos (by omega),
        show last * streams.alpha + slot = streams.nbStream - 1 by omega, erased byte byte_lt]
    · rw [if_neg (by omega), if_neg (by omega : ¬ last * streams.alpha + slot < streams.nbStream)]
      by_cases padded : slot + 1 < streams.alpha
      · rw [if_pos padded]
      · rw [if_neg padded]
        split
        next => rfl
        next later =>
          rw [← first_iff] at stale
          exact (stale.resolve_left later) byte byte_lt

/--
A database is imported as it is exactly if no stream of the last group is missing, or
neither the stream that is erased nor the one that is taken over shows.
-/
theorem importDataNFL_aggregates_iff (db : DBDirectoryProcessor) (streams : StreamDatabase)
    {fuel : ℕ} (enough : streams.fileByteSize + streams.nbStream + 1 < fuel) :
    ∃ data, db.importDataNFL streams id (fun _ => 0) fuel = some data ∧
      ((∀ i (inside : i * streams.alpha < streams.nbStream),
        (streams.group i inside).Aggregates (db.fileByte streams) (data i)) ↔
          streams.Even ∨ db.HarmlessEnd streams) := by
  rcases db.importDataNFL_eq streams id (fun _ => 0) enough with ⟨data, returns, elements, _⟩
  have aggregates_iff : ∀ i (inside : i * streams.alpha < streams.nbStream),
      (streams.group i inside).Aggregates (db.fileByte streams) (data i) ↔
        ∀ slot < streams.alpha, ∀ byte < streams.fileByteSize,
          db.slotByte streams i slot byte = if i * streams.alpha + slot < streams.nbStream then
            db.fileByte streams (i * streams.alpha + slot) (streams.offset + byte) else 0 := by
    intro i inside
    rcases elements i ((streams.lt_nbruns_iff i).mpr inside) with ⟨rawBits, holds, data_eq⟩
    rw [data_eq]
    apply forall₂_congr
    intro slot slot_lt
    apply forall₂_congr
    intro byte byte_lt
    rw [← holds slot slot_lt byte byte_lt]
    rfl
  refine ⟨data, returns, ?_⟩
  have alpha_pos := streams.alpha_pos
  have split_eq := Nat.div_add_mod' streams.nbStream streams.alpha
  by_cases even : streams.Even
  · refine iff_of_true ?_ (Or.inl even)
    intro i inside
    rw [aggregates_iff]
    intro slot slot_lt byte _
    apply slotByte_of_full slot_lt
    rcases even with ⟨groups, groups_eq⟩
    rw [groups_eq, Nat.mul_comm] at inside
    rw [groups_eq, ← Nat.succ_mul, Nat.mul_comm streams.alpha]
    exact Nat.mul_le_mul_right _ (Nat.lt_of_mul_lt_mul_left inside)
  · rw [or_iff_right even, ← slotByte_last_iff even]
    have rest_pos : 0 < streams.nbStream % streams.alpha :=
      Nat.pos_of_ne_zero fun zero => even (Nat.dvd_of_mod_eq_zero zero)
    constructor
    · intro all
      exact (aggregates_iff _ (by omega)).mp (all _ (by omega))
    · intro last i inside
      rw [aggregates_iff]
      by_cases full : i * streams.alpha + streams.alpha ≤ streams.nbStream
      · intro slot slot_lt byte _
        exact slotByte_of_full slot_lt full
      · have here : i = streams.nbStream / streams.alpha := by
          symm
          exact Nat.div_eq_of_lt_le inside.le (by rw [Nat.succ_mul]; omega)
        rw [here]
        exact last

theorem two_lt_range : 2 < 2 ^ 32 := by decide

theorem three_lt_range : 3 < 2 ^ 31 := by decide

/-- Three streams of a byte one, in groups of two. -/
def threeStreams : StreamDatabase where
  nbStream := 3
  maxFileBytesize := 1
  alpha := 2
  offset := 0
  bytesPerFile := 1
  alpha_pos := Nat.two_pos
  alpha_lt := two_lt_range
  nbStream_pos := Nat.succ_pos 2
  nbStream_lt := three_lt_range
  offset_lt := Nat.one_pos
  bytes_pos := Nat.one_pos

def onesDirectory : DBDirectoryProcessor where
  filesSplitting := false
  files := fun _ => wholeFile [1]
  realFile := wholeFile []

/-- The last of three streams is lost. -/
theorem importDataNFL_aggregates_iff_three : ∃ data,
    onesDirectory.importDataNFL threeStreams id (fun _ => 0) 6 = some data ∧
      ¬ ∀ i (inside : i * threeStreams.alpha < threeStreams.nbStream),
        (threeStreams.group i inside).Aggregates (onesDirectory.fileByte threeStreams) (data i) := by
  rcases importDataNFL_aggregates_iff onesDirectory threeStreams (by decide : 1 + 3 + 1 < 6) with
    ⟨data, returns, exact_iff⟩
  refine ⟨data, returns, fun all => ?_⟩
  rcases exact_iff.mp all with even | ⟨erased, _⟩
  · exact absurd (show 2 ∣ 3 from even) (by decide)
  · exact absurd (erased 0 Nat.one_pos) (by decide)

end Exactness

end DBDirectoryProcessor

end Xpir
