import Mathlib.Data.Fintype.Basic
import Xpir.Session.CryptoParams

/-!
# Storing PIR parameters in a file

A driven session ends by writing its parameters to a file, from which later sessions take
them. The aggregation is neither written nor read, so that it stays what the target of the
read held before.

The reader assigns the number of dimensions, and then one size after the other, before it
knows that the rest of the file is valid. `readPIRParameters_iff` says which targets are
restored, and which of them a read that fails leaves as they were.
-/

namespace Xpir

/-- The parameters that the server keeps. -/
structure SavedPIRParams where
  alpha : UInt32
  d : UInt32
  n : Fin maxRecLvl → UInt32
  cryptoParams : List Char

/-- A file that is read line by line, and whether a read has met its end. -/
structure InputFile where
  rest : List Char
  eof : Bool

/-- `std::getline`, which keeps the line it is given once the end has been met. -/
def InputFile.getline (file : InputFile) (line : List Char) : List Char × InputFile :=
  if file.eof then (line, file)
  else
    ((Xpir.getline file.rest).1,
      { rest := (Xpir.getline file.rest).2, eof := decide ('\n' ∉ file.rest) })

/-- What a read of the parameters does to its target. -/
inductive ReadOutcome
  | returned (code : ℕ) (params : SavedPIRParams)
  | thrown (params : SavedPIRParams)
  /-- A size has been written behind the end of the array. -/
  | undefined

section Lines

theorem getline_append {line : List Char} (oneLine : '\n' ∉ line) (rest : List Char) :
    getline (line ++ '\n' :: rest) = (line, rest) := by
  have inLine : ∀ c ∈ line, decide (c ≠ '\n') = true := fun c mem => by
    rw [decide_eq_true_eq]
    rintro rfl
    exact oneLine mem
  rw [getline, List.takeWhile_append_of_pos inLine, List.dropWhile_append_of_pos inLine]
  simp

theorem InputFile.getline_append {line : List Char} (oneLine : '\n' ∉ line)
    (rest before : List Char) :
    InputFile.getline { rest := line ++ '\n' :: rest, eof := false } before =
      (line, { rest := rest, eof := false }) := by
  simp [InputFile.getline, Xpir.getline_append oneLine]

/-- Each field is followed by a blank. -/
theorem intercalate_blank (first : List Char) (fields : List (List Char)) :
    [' '].intercalate (first :: (fields ++ [[]])) =
      first ++ ' ' :: fields.flatMap (fun field => field ++ [' ']) := by
  induction fields generalizing first with
  | nil => simp [List.intercalate]
  | cons field fields ih =>
      rw [List.cons_append, List.intercalate_cons_cons, ih, List.flatMap_cons]
      simp

theorem notMem_toText {c : Char} (other : c.isDigit = false) (value : ℕ) : c ∉ toText value := by
  intro mem
  rw [isDigit_of_mem_toText mem] at other
  exact absurd other (by decide)

end Lines

namespace SavedPIRParams

variable (params target : SavedPIRParams)

def setN (i : ℕ) (size : UInt32) : Option SavedPIRParams :=
  if inside : i < maxRecLvl then
    some { params with n := Function.update params.n ⟨i, inside⟩ size }
  else none

/-- The text written; more dimensions than the array has are read from behind its end. -/
def writePIRParameters : Option (List Char) :=
  if params.d.toNat ≤ maxRecLvl then
    some ("d ".toList ++ toText params.d.toNat ++ ['\n'] ++ "dim ".toList ++
      ((List.finRange maxRecLvl).take params.d.toNat).flatMap
        (fun i => toText (params.n i).toNat ++ [' ']) ++ ['\n'] ++
      params.cryptoParams ++ ['\n'])
  else none

/-- The sizes assigned, while there are dimensions and fields. -/
def readSizes (fields : List (List Char)) : Option SavedPIRParams :=
  (List.range (min params.d.toNat (fields.length - 1))).foldlM
    (fun params i => params.setN i (atoi (fields.getD (i + 1) []))) params

/-- A file that cannot be opened has no content. -/
def readPIRParameters (file : Option (List Char)) : ReadOutcome :=
  match file with
  | none => .returned 1 target
  | some content =>
      let (line, file) := InputFile.getline { rest := content, eof := false } []
      match (line.splitOn ' ')[1]? with
      | none => .thrown target
      | some field =>
          let params := { target with d := atoi field }
          if file.eof then .returned 1 params
          else
            let (line, file) := file.getline line
            let fields := line.splitOn ' '
            match params.readSizes fields with
            | none => .undefined
            | some params =>
                if min params.d.toNat (fields.length - 1) ≠ params.d.toNat then
                  .returned 1 params
                else .returned 0 { params with cryptoParams := (file.getline line).1 }

/-- A read of the file written gives the parameters back. -/
def RestoredInto : Prop :=
  ∃ content, params.writePIRParameters = some content ∧
    ∃ restored, target.readPIRParameters (some content) = .returned 0 restored ∧
      restored.d = params.d ∧ restored.alpha = params.alpha ∧
      (∀ i, i.val < params.d.toNat → restored.n i = params.n i) ∧
      restored.cryptoParams = params.cryptoParams

/-- A read that fails leaves the target as it was. -/
def KeptBy (file : Option (List Char)) : Prop :=
  match target.readPIRParameters file with
  | .returned code params => code ≠ 0 → params = target
  | .thrown params => params = target
  | .undefined => False

/--
The sizes stay in the array, and what stands in front of the place where the file ends too
early agrees with the target.
-/
def AgreesWith (content : List Char) : Prop :=
  ∀ field, ((getline content).1.splitOn ' ')[1]? = some field →
    if '\n' ∈ content then
      let sizes := ((getline (getline content).2).1.splitOn ' ').tail
      min (atoi field).toNat sizes.length ≤ maxRecLvl ∧
        (sizes.length < (atoi field).toNat → atoi field = target.d ∧
          ∀ i : Fin maxRecLvl, i.val < sizes.length → atoi (sizes.getD i []) = target.n i)
    else atoi field = target.d

section Reading

variable {params target}

/-- The sizes are assigned while they are in the array. -/
theorem foldlM_setN (value : ℕ → UInt32) (count : ℕ) :
    (List.range count).foldlM (fun params i => params.setN i (value i)) params =
      if count ≤ maxRecLvl then
        some { params with n := fun i => if i.val < count then value i else params.n i }
      else none := by
  induction count with
  | zero => simp
  | succ count ih =>
      rw [foldlM_range_succ, ih]
      split
      next le =>
        rw [Option.bind_some, setN]
        split
        next inside =>
          rw [if_pos (by omega)]
          congr 2
          funext i
          rcases eq_or_ne i ⟨count, inside⟩ with rfl | other
          · simp
          · have differ : i.val ≠ count := fun same => other (Fin.ext same)
            have earlier : i.val < count + 1 ↔ i.val < count := by omega
            simp only [Function.update_of_ne other, earlier]
        next outside => rw [if_neg (by omega)]
      next beyond => rw [if_neg (by omega), Option.bind_none]

theorem readSizes_eq (fields : List (List Char)) :
    params.readSizes fields =
      if min params.d.toNat (fields.length - 1) ≤ maxRecLvl then
        some { params with
          n := fun i =>
            if i.val < min params.d.toNat (fields.length - 1) then atoi (fields.getD (i + 1) [])
            else params.n i }
      else none := by
  rw [readSizes, foldlM_setN]

theorem eq_target_iff (d : UInt32) (n : Fin maxRecLvl → UInt32) :
    { target with d := d, n := n } = target ↔ d = target.d ∧ ∀ i, n i = target.n i := by
  cases target
  simp [funext_iff]

/-- The end is met by the first line, or in front of a size, or not at all. -/
theorem keptBy_iff (content : List Char) :
    target.KeptBy (some content) ↔ target.AgreesWith content := by
  rw [KeptBy, readPIRParameters, AgreesWith]
  simp only [InputFile.getline, Bool.false_eq_true, if_false, decide_eq_true_eq]
  cases ((getline content).1.splitOn ' ')[1]? with
  | none => simp
  | some field =>
      simp only [Option.some.injEq, forall_eq']
      by_cases newline : '\n' ∈ content
      · simp only [newline, not_true_eq_false, if_false, if_true, readSizes_eq, List.length_tail]
        generalize (getline (getline content).2).1.splitOn ' ' = fields
        have tail_eq : ∀ i, fields.tail.getD i [] = fields.getD (i + 1) [] := fun i => by
          cases fields <;> rfl
        simp only [tail_eq]
        by_cases inside : min (atoi field).toNat (fields.length - 1) ≤ maxRecLvl
        · simp only [inside, if_true, true_and]
          by_cases few : fields.length - 1 < (atoi field).toNat
          · rw [min_eq_right few.le, if_pos few.ne]
            simp only [few, forall_const, ne_eq, one_ne_zero, not_false_eq_true]
            rw [eq_target_iff]
            refine and_congr_right fun _ => forall_congr' fun i => ?_
            by_cases before : i.val < fields.length - 1 <;> simp [before]
          · rw [min_eq_left (not_lt.mp few), if_neg (by simp)]
            simp [few]
        · simp [inside]
      · simp only [newline, not_false_eq_true, if_true, if_false, ne_eq, one_ne_zero, forall_const]
        rw [eq_target_iff]
        simp

end Reading

section Writing

/-- The fields for the sizes. -/
def sizeFields : List (List Char) :=
  ((List.finRange maxRecLvl).take params.d.toNat).map fun i => toText (params.n i).toNat

def dLine : List Char := 'd' :: ' ' :: toText params.d.toNat

def dimLine : List Char :=
  "dim".toList ++ ' ' :: params.sizeFields.flatMap (fun field => field ++ [' '])

variable {params target}

/-- The file that is written has three lines. -/
theorem writePIRParameters_eq (d_le : params.d.toNat ≤ maxRecLvl) :
    params.writePIRParameters =
      some (params.dLine ++ '\n' :: (params.dimLine ++ '\n' :: (params.cryptoParams ++ ['\n']))) := by
  rw [writePIRParameters, if_pos d_le, dLine, dimLine, sizeFields, List.flatMap_map]
  simp

theorem length_sizeFields (d_le : params.d.toNat ≤ maxRecLvl) :
    params.sizeFields.length = params.d.toNat := by
  rw [sizeFields, List.length_map, List.length_take, List.length_finRange, min_eq_left d_le]

theorem getD_sizeFields {i : Fin maxRecLvl} (i_lt : i.val < params.d.toNat) :
    params.sizeFields.getD i [] = toText (params.n i).toNat := by
  have i_le := i.isLt
  simp [sizeFields, List.getD_eq_getElem?_getD, i_lt]

theorem notMem_sizeField {c : Char} (other : c.isDigit = false) :
    ∀ field ∈ params.sizeFields, c ∉ field := by
  intro field field_mem
  rcases List.mem_map.mp field_mem with ⟨i, _, rfl⟩
  exact notMem_toText other _

theorem splitOn_dLine : params.dLine.splitOn ' ' = [['d'], toText params.d.toNat] := by
  have joined : params.dLine = [' '].intercalate [['d'], toText params.d.toNat] := by
    simp [dLine, List.intercalate]
  rw [joined, List.splitOn_intercalate ' ' (by simp [notMem_toText]) (by simp)]

theorem splitOn_dimLine :
    params.dimLine.splitOn ' ' = "dim".toList :: (params.sizeFields ++ [[]]) := by
  rw [dimLine, ← intercalate_blank, List.splitOn_intercalate ' ' _ (by simp)]
  intro field field_mem
  rcases List.mem_cons.mp field_mem with rfl | field_mem
  · decide
  · rcases List.mem_append.mp field_mem with field_mem | field_mem
    · exact notMem_sizeField rfl field field_mem
    · simp [List.mem_singleton.mp field_mem]

theorem oneLine_dLine : '\n' ∉ params.dLine := by
  simp [dLine, notMem_toText]

theorem oneLine_dimLine : '\n' ∉ params.dimLine := by
  simp only [dimLine, List.mem_append, List.mem_cons, List.mem_flatMap, not_or, not_exists]
  refine ⟨by decide, by decide, fun field mem => ?_⟩
  rcases mem with ⟨field_mem, c_mem | c_mem⟩
  · exact notMem_sizeField rfl field field_mem c_mem
  · exact absurd c_mem (by decide)

theorem readSizes_dimLine (d_le : params.d.toNat ≤ maxRecLvl) (d_eq : target.d = params.d) :
    target.readSizes (params.dimLine.splitOn ' ') =
      some { target with
        n := fun i => if i.val < params.d.toNat then params.n i else target.n i } := by
  have count_eq : min params.d.toNat
      (("dim".toList :: (params.sizeFields ++ [[]])).length - 1) = params.d.toNat := by
    simp [length_sizeFields d_le]
  have field_eq : ∀ i : Fin maxRecLvl, i.val < params.d.toNat →
      ("dim".toList :: (params.sizeFields ++ [[]])).getD (i + 1) [] =
        toText (params.n i).toNat := fun i i_lt => by
    rw [List.getD_cons_succ, List.getD_eq_getElem?_getD,
      List.getElem?_append_left (by rwa [length_sizeFields d_le]), ← List.getD_eq_getElem?_getD,
      getD_sizeFields i_lt]
  rw [splitOn_dimLine, readSizes_eq, d_eq, count_eq, if_pos d_le]
  congr 2
  funext i
  by_cases i_lt : i.val < params.d.toNat
  · rw [if_pos i_lt, if_pos i_lt, field_eq i i_lt, atoi_toText_toNat]
  · rw [if_neg i_lt, if_neg i_lt]

/-- The read of the file that is written succeeds, and leaves the aggregation alone. -/
theorem readPIRParameters_writePIRParameters (d_le : params.d.toNat ≤ maxRecLvl)
    (oneLine : '\n' ∉ params.cryptoParams) :
    ∃ content, params.writePIRParameters = some content ∧
      target.readPIRParameters (some content) = .returned 0
        { params with
          alpha := target.alpha
          n := fun i => if i.val < params.d.toNat then params.n i else target.n i } := by
  refine ⟨_, writePIRParameters_eq d_le, ?_⟩
  have sizes_eq : { target with d := params.d }.readSizes (params.dimLine.splitOn ' ') = some _ :=
    readSizes_dimLine d_le rfl
  rw [readPIRParameters]
  simp only [InputFile.getline_append oneLine_dLine, InputFile.getline_append oneLine_dimLine,
    InputFile.getline_append oneLine, Bool.false_eq_true, if_false, splitOn_dLine,
    List.getElem?_cons_succ, List.getElem?_cons_zero, atoi_toText_toNat,
    sizes_eq]
  rw [splitOn_dimLine]
  simp [length_sizeFields d_le]

/-- What is read is what has been written if the target has the same aggregation. -/
theorem restoredInto_iff (d_le : params.d.toNat ≤ maxRecLvl)
    (oneLine : '\n' ∉ params.cryptoParams) :
    params.RestoredInto target ↔ target.alpha = params.alpha := by
  rcases @readPIRParameters_writePIRParameters _ target d_le oneLine with
    ⟨content, writes, reads⟩
  constructor
  · rintro ⟨other, other_writes, restored, other_reads, _, alpha_eq, _⟩
    obtain rfl : content = other := Option.some.inj (writes.symm.trans other_writes)
    rw [reads] at other_reads
    rw [← alpha_eq, ← (ReadOutcome.returned.inj other_reads).2]
  · intro alpha_eq
    refine ⟨content, writes, _, reads, rfl, alpha_eq, fun i i_lt => ?_, rfl⟩
    exact if_pos i_lt

end Writing

/--
Parameters are restored into the targets that have their aggregation, and a read that
fails leaves those as they were that agree with everything in front of the place where the
file ends too early.
-/
theorem readPIRParameters_iff (d_le : params.d.toNat ≤ maxRecLvl)
    (oneLine : '\n' ∉ params.cryptoParams) (file : Option (List Char)) :
    (params.RestoredInto target ↔ target.alpha = params.alpha) ∧
      (target.KeptBy file ↔ ∀ content, file = some content → target.AgreesWith content) := by
  refine ⟨restoredInto_iff d_le oneLine, ?_⟩
  cases file with
  | none => simp [KeptBy, readPIRParameters]
  | some content => simp [keptBy_iff]

def twoDimensions : SavedPIRParams where
  alpha := 3
  d := 2
  n := fun _ => 4
  cryptoParams := "LWE:80:2048:120:22".toList

def noDimensions : SavedPIRParams where
  alpha := 0
  d := 0
  n := fun _ => 0
  cryptoParams := []

theorem readPIRParameters_iff_twoDimensions :
    (twoDimensions.RestoredInto noDimensions ↔ noDimensions.alpha = twoDimensions.alpha) ∧
      (noDimensions.KeptBy (some "d 5".toList) ↔
        ∀ content, some "d 5".toList = some content → noDimensions.AgreesWith content) :=
  readPIRParameters_iff twoDimensions noDimensions (by decide) (by decide) (some "d 5".toList)

/-- The aggregation is lost, and a file that ends after its first line changes the target. -/
theorem not_restoredInto_noDimensions :
    ¬ twoDimensions.RestoredInto noDimensions ∧ ¬ noDimensions.KeptBy (some "d 5".toList) := by
  constructor
  · rw [restoredInto_iff (by decide) (by decide)]
    decide
  · rw [keptBy_iff]
    intro agrees
    exact absurd (agrees ['5'] (by decide)) (by decide)

end SavedPIRParams

end Xpir
