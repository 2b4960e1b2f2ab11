import Mathlib.Algebra.Order.Group.Nat
import Xpir.Session.StoredParams

/-!
# The catalog of files

The server prints the catalog line by line, and the client parses it with formatted reads
and reads into buffers of a fixed length. Sizes go through `atoi`, and the lists of the
client are never cleared, so that the files of a catalog stand behind those of all
catalogs before.

`makeMenu_getCatalog_iff` says which catalogs arrive as they are, and what that amounts to
for the first one.
-/

namespace Xpir

namespace Catalog

/-- `FILENAME_MAX_BYTE_SIZE`. -/
def filenameMaxByteSize : ℕ := 1023

/-- The largest size, as it is kept while the sizes are met one after the other. -/
def largestSize (sizes : List UInt64) : UInt64 :=
  sizes.foldl (fun largest size => if largest < size then size else largest) 0

/-! ## The server -/

/-- What a catalog says of a file. -/
structure CatalogFile where
  name : List Char
  size : UInt64

/-- A line with the name and a line with the size. -/
def CatalogFile.lines (file : CatalogFile) : List Char :=
  file.name ++ '\n' :: (toText file.size.toNat ++ ['\n'])

/-- The text of a catalog of either type. -/
def catalogText (nbStream : ℕ) (files : List CatalogFile) (maxFileBytesize : UInt64)
    (typeOfCatalog : Bool) : List Char :=
  if typeOfCatalog then
    toText 0 ++ '\n' :: (toText nbStream ++ '\n' :: files.flatMap CatalogFile.lines)
  else toText 1 ++ '\n' :: (toText nbStream ++ '\n' :: (toText maxFileBytesize.toNat ++ ['\n']))

/-- The files of a directory, or the parts of one file that is split. -/
structure DBDirectoryProcessor where
  filesSplitting : Bool
  fileList : List (List Char)
  getFileSize : List Char → UInt64
  maxFileBytesize : UInt64

namespace DBDirectoryProcessor

def files (db : DBDirectoryProcessor) : List CatalogFile :=
  db.fileList.map fun f =>
    { name := f, size := if db.filesSplitting then db.maxFileBytesize else db.getFileSize f }

def getCatalog (db : DBDirectoryProcessor) (typeOfCatalog : Bool) : List Char :=
  catalogText db.fileList.length db.files db.maxFileBytesize typeOfCatalog

end DBDirectoryProcessor

/-- Files that are generated; their number is kept beside the list of their names. -/
structure DBGenerator where
  fileList : List (List Char)
  nbFiles : UInt64
  maxFileBytesize : UInt64

namespace DBGenerator

def files (db : DBGenerator) : List CatalogFile :=
  db.fileList.map fun f => { name := f, size := db.maxFileBytesize }

def getCatalog (db : DBGenerator) (typeOfCatalog : Bool) : List Char :=
  catalogText db.nbFiles.toNat db.files db.maxFileBytesize typeOfCatalog

end DBGenerator

/-- The databases that print a catalog. -/
inductive DBHandler
  | directoryProcessor (db : DBDirectoryProcessor)
  | generator (db : DBGenerator)

namespace DBHandler

def files : DBHandler → List CatalogFile
  | directoryProcessor db => db.files
  | generator db => db.files

def getNbStream : DBHandler → ℕ
  | directoryProcessor db => db.fileList.length
  | generator db => db.nbFiles.toNat

def maxFileBytesize : DBHandler → UInt64
  | directoryProcessor db => db.maxFileBytesize
  | generator db => db.maxFileBytesize

def getCatalog : DBHandler → Bool → List Char
  | directoryProcessor db => db.getCatalog
  | generator db => db.getCatalog

/-- The number of files and the largest size are those of the files. -/
structure Lists (handler : DBHandler) (files : List CatalogFile) : Prop where
  files_eq : handler.files = files
  nbStream_eq : handler.getNbStream = files.length
  maxFileBytesize_eq : handler.maxFileBytesize = largestSize (files.map CatalogFile.size)

end DBHandler

/-! ## The client -/

/-- A `std::stringstream`; `good` until a read has failed or met the end. -/
structure StringStream where
  rest : List Char
  good : Bool

namespace StringStream

variable (stream : StringStream)

/-- `>>` into an unsigned number, which keeps its value if there is nothing to read. -/
def extract (bits : ℕ) : Option ℕ × StringStream :=
  let text := stream.rest.dropWhile isSpace
  if stream.good = false ∨ text = [] then (none, { stream with good := false })
  else
    let negative := decide (text.head? = some '-')
    let unsignedText :=
      if text.head? = some '-' ∨ text.head? = some '+' then text.tail else text
    let rest := unsignedText.dropWhile Char.isDigit
    if unsignedText.takeWhile Char.isDigit = [] then (some 0, { rest := rest, good := false })
    else if 2 ^ bits ≤ digitsValue unsignedText then
      (some (2 ^ bits - 1), { rest := rest, good := false })
    else
      (some (if negative then (2 ^ bits - digitsValue unsignedText) % 2 ^ bits
        else digitsValue unsignedText), { rest := rest, good := decide (rest ≠ []) })

/-- `getline` into a buffer: what the buffer holds, and how many characters were read. -/
def getline : List Char × ℕ × StringStream :=
  let line := stream.rest.takeWhile (· ≠ '\n')
  if stream.good = false then ([], 0, stream)
  else if filenameMaxByteSize - 1 < line.length then
    (line.take (filenameMaxByteSize - 1), filenameMaxByteSize - 1,
      { rest := stream.rest.drop (filenameMaxByteSize - 1), good := false })
  else if '\n' ∈ stream.rest then
    (line, line.length + 1,
      { rest := (stream.rest.dropWhile (· ≠ '\n')).tail, good := true })
  else (line, line.length, { rest := [], good := false })

end StringStream

/-- The size that is read from a line: an `int`, assigned to a `uint64_t`. -/
def readSize (text : List Char) : UInt64 := (atoi text).toInt32.toInt64.toUInt64

/-- The menu of a client. -/
structure DESC where
  fileList : List (List Char)
  fileSize : List UInt64
  maxFileSize : UInt64
  nbFiles : UInt64

namespace DESC

variable (desc : DESC)

/-- The body of the loop over the files. -/
def readFile (state : DESC × StringStream) : DESC × StringStream :=
  let (fileName, _, ss) := state.2.getline
  let (tmpSize, gcount, ss) := ss.getline
  if 0 < gcount then
    ({ fileList := state.1.fileList ++ [fileName]
       fileSize := state.1.fileSize ++ [readSize tmpSize]
       maxFileSize :=
        if state.1.maxFileSize < readSize tmpSize then readSize tmpSize else state.1.maxFileSize
       nbFiles := state.1.nbFiles + 1 }, ss)
  else (state.1, ss)

/--
The buffer ends at its first zero. There is no result if the type of the catalog is not
read at all, for it has no value before. The message on an unknown type is left out.
-/
def makeMenu (receivedBuffer : List Char) : Option DESC :=
  let desc := { desc with maxFileSize := 0 }
  let ss : StringStream := { rest := receivedBuffer.takeWhile (· ≠ '\x00'), good := true }
  match ss.extract 32 with
  | (none, _) => none
  | (some 0, ss) =>
      let (fileCount, ss) := ss.extract 64
      let (_, _, ss) := ss.getline
      some (forLoop (fileCount.getD 0) (fun _ => readFile) ({ desc with nbFiles := 0 }, ss)).1
  | (some 1, ss) =>
      let (fileCount, ss) := ss.extract 64
      let (_, _, ss) := ss.getline
      let (tmpSize, _, _) := ss.getline
      let desc := { desc with maxFileSize := readSize tmpSize }
      let desc := forLoop (fileCount.getD 0)
        (fun i desc => { desc with
          fileList := desc.fileList ++ [toText i]
          fileSize := desc.fileSize ++ [desc.maxFileSize] }) desc
      some { desc with nbFiles := UInt64.ofNat (fileCount.getD 0) }
  | _ => some desc

/-- Behind the end of the list there is no name. -/
def getFileName (index : UInt64) : Option (List Char) :=
  if index < desc.nbFiles then desc.fileList[index.toNat]? else some "None".toList

def getFileSize (index : UInt64) : UInt64 :=
  if index.toNat < desc.fileSize.length then desc.fileSize.getD index.toNat 0 else -1

def getFilesNum : UInt64 := desc.nbFiles

def getMaxFileSize : UInt64 := desc.maxFileSize

/-- The menu has these files, in this order, and their largest size. -/
structure Shows (files : List CatalogFile) (maxFileBytesize : UInt64) : Prop where
  filesNum : desc.getFilesNum.toNat = files.length
  fileName : ∀ i (i_lt : i < files.length),
    desc.getFileName (UInt64.ofNat i) = some files[i].name
  fileSize : ∀ i (i_lt : i < files.length), desc.getFileSize (UInt64.ofNat i) = files[i].size
  maxFileSize : desc.getMaxFileSize = maxFileBytesize

end DESC

/-- What a catalog of a type says: all files, or their indices with the largest size. -/
def shownFiles (files : List CatalogFile) (typeOfCatalog : Bool) : List CatalogFile :=
  if typeOfCatalog then files
  else (List.range files.length).map fun i =>
    { name := toText i, size := largestSize (files.map CatalogFile.size) }

/-- A name fits in the buffer, and does not end it. -/
def FitsBuffer (name : List Char) : Prop :=
  name.length < filenameMaxByteSize ∧ '\x00' ∉ name

/-- A size is read as it has been printed. -/
def ReadsBack (size : UInt64) : Prop := size.toNat < 2 ^ 31 ∨ size.toNat = 2 ^ 64 - 1

/--
The names fit, and the lists that the client keeps, followed by the files with their sizes
as they are read, start with the files; so does the largest size.
-/
structure DESC.Accepts (desc : DESC) (files : List CatalogFile) : Prop where
  fits : ∀ file ∈ files, FitsBuffer file.name
  names : files.map CatalogFile.name <+: desc.fileList ++ files.map CatalogFile.name
  sizes : files.map CatalogFile.size <+:
    desc.fileSize ++ files.map fun file => readSize (toText file.size.toNat)
  largest : largestSize (files.map fun file => readSize (toText file.size.toNat)) =
    largestSize (files.map CatalogFile.size)

section Stream

theorem isSpace_newline : isSpace '\n' = true := by decide

theorem length_toText {value : ℕ} (value_lt : value < 2 ^ 64) :
    (toText value).length < filenameMaxByteSize := by
  have short : (toText value).length ≤ 20 :=
    (Nat.length_toDigits_le_iff (by norm_num) (by norm_num)).mpr (by omega)
  rw [filenameMaxByteSize]
  omega

theorem fitsBuffer_toText {value : ℕ} (value_lt : value < 2 ^ 64) : FitsBuffer (toText value) :=
  ⟨length_toText value_lt, notMem_toText (by decide) value⟩

theorem takeWhile_toText (value : ℕ) (rest : List Char) :
    (toText value ++ '\n' :: rest).takeWhile Char.isDigit = toText value ∧
      (toText value ++ '\n' :: rest).dropWhile Char.isDigit = '\n' :: rest := by
  have digits : ∀ c ∈ toText value, c.isDigit = true := fun c mem => isDigit_of_mem_toText mem
  rw [List.takeWhile_append_of_pos digits, List.dropWhile_append_of_pos digits]
  simp

theorem digitsValue_line (value : ℕ) (rest : List Char) :
    digitsValue (toText value ++ '\n' :: rest) = value := by
  have digits : (toText value).takeWhile Char.isDigit = toText value :=
    List.takeWhile_eq_self_iff.mpr fun _ mem => isDigit_of_mem_toText mem
  calc digitsValue (toText value ++ '\n' :: rest)
      = digitsValue (toText value) := by
        rw [digitsValue, digitsValue, (takeWhile_toText value rest).1, digits]
    _ = value := digitsValue_toText value

/-- A number at the start of a line, behind the end of the line before or not. -/
theorem extract_toText {bits value : ℕ} (value_lt : value < 2 ^ bits) {blanks : List Char}
    (spaces : ∀ c ∈ blanks, isSpace c = true) (rest : List Char) :
    StringStream.extract { rest := blanks ++ (toText value ++ '\n' :: rest), good := true } bits =
      (some value, { rest := '\n' :: rest, good := true }) := by
  have digits := takeWhile_toText value rest
  have value_eq := digitsValue_line value rest
  have digit : ∀ c ∈ toText value, c.isDigit = true := fun c mem => isDigit_of_mem_toText mem
  have trimmed : (blanks ++ (toText value ++ '\n' :: rest)).dropWhile isSpace =
      toText value ++ '\n' :: rest := by
    rw [List.dropWhile_append_of_pos spaces]
    cases text : toText value with
    | nil => exact absurd text Nat.toDigits_ne_nil
    | cons c others =>
        have first := digit c (by rw [text]; exact List.mem_cons_self)
        rw [List.cons_append, List.dropWhile_cons_of_neg (by simp [isSpace_eq_false first])]
  have unsigned : ∀ c, c.isDigit = false → c ≠ '\n' →
      (toText value ++ '\n' :: rest).head? ≠ some c := by
    rintro c other not_newline
    cases text : toText value with
    | nil => exact absurd text Nat.toDigits_ne_nil
    | cons first others =>
        rintro same
        obtain rfl : first = c := Option.some.inj same
        rw [digit first (by rw [text]; exact List.mem_cons_self)] at other
        exact absurd other (by decide)
  rw [StringStream.extract, trimmed]
  simp only [unsigned '-' (by decide) (by decide), unsigned '+' (by decide) (by decide), digits.1,
    digits.2, value_eq, Bool.true_eq_false, or_self, if_false, decide_false, Bool.false_eq_true]
  have nonempty : toText value ≠ [] := Nat.toDigits_ne_nil
  rw [if_neg (by simp), if_neg nonempty, if_neg (by omega)]
  simp

theorem getline_line {line : List Char} (oneLine : '\n' ∉ line)
    (short : line.length < filenameMaxByteSize) (rest : List Char) :
    StringStream.getline { rest := line ++ '\n' :: rest, good := true } =
      (line, line.length + 1, { rest := rest, good := true }) := by
  have lines := getline_append oneLine rest
  rw [getline, Prod.mk.injEq] at lines
  rw [StringStream.getline]
  simp only [lines.1, lines.2, Bool.true_eq_false, if_false]
  rw [if_neg (by omega), if_pos (by simp)]

/-- Nothing is read from a stream that is not good. -/
theorem getline_not_good {stream : StringStream} (bad : stream.good = false) :
    stream.getline = ([], 0, stream) := by
  rw [StringStream.getline, if_pos bad]

/-- A stream that is not good, or whose next line has no end or does not fit. -/
def StringStream.Blocked (stream : StringStream) : Prop :=
  stream.good = false ∨ '\n' ∉ stream.rest ∨
    filenameMaxByteSize ≤ (stream.rest.takeWhile (· ≠ '\n')).length

theorem StringStream.Blocked.getline {stream : StringStream} (blocked : stream.Blocked) :
    stream.getline.2.2.good = false := by
  rw [StringStream.getline]
  split_ifs with bad long newline
  · exact bad
  · rfl
  · rcases blocked with not_good | endless | too_long
    · exact absurd not_good bad
    · exact absurd newline endless
    · rw [filenameMaxByteSize] at long too_long
      omega
  · rfl

end Stream

section Sizes

/-- An `int` whose sign is extended. -/
theorem readSize_toText (size : UInt64) :
    readSize (toText size.toNat) = size ↔ ReadsBack size := by
  have size_lt := size.toNat_lt
  have read_eq : ((atoi (toText size.toNat)).toInt32.toInt64.toUInt64 = size) ↔
      (min (size.toNat : ℤ) (2 ^ 63 - 1)).bmod (2 ^ 32) = (size.toNat : ℤ).bmod (2 ^ 64) := by
    have signed : size.toInt64.toInt = (size.toNat : ℤ).bmod (2 ^ 64) :=
      BitVec.toInt_eq_toNat_bmod size.toBitVec
    have read : (atoi (toText size.toNat)).toInt32.toInt64.toInt =
        (min (size.toNat : ℤ) (2 ^ 63 - 1)).bmod (2 ^ 32) := by
      rw [atoi, strtol_toText, toInt32_ofInt, Int32.toInt_toInt64, Int32.toInt_ofInt]
      rfl
    rw [← signed, ← read, Int64.toInt_inj]
    constructor
    · exact fun same => congrArg UInt64.toInt64 same
    · exact fun same => congrArg Int64.toUInt64 same
  rw [readSize, ReadsBack, read_eq, Int.bmod, Int.bmod]
  split <;> split <;> omega

end Sizes

namespace DESC

/-- The menu once these files have been read. -/
def withFiles (desc : DESC) (files : List CatalogFile) : DESC where
  fileList := desc.fileList ++ files.map CatalogFile.name
  fileSize := desc.fileSize ++ files.map fun file => readSize (toText file.size.toNat)
  maxFileSize := (files.map fun file => readSize (toText file.size.toNat)).foldl
    (fun largest size => if largest < size then size else largest) desc.maxFileSize
  nbFiles := desc.nbFiles + UInt64.ofNat files.length

section Loop

variable {desc : DESC}

theorem readFile_lines {file : CatalogFile} (fits : FitsBuffer file.name)
    (oneLine : '\n' ∉ file.name) (rest : List Char) :
    readFile (desc, { rest := file.lines ++ rest, good := true }) =
      (desc.withFiles [file], { rest := rest, good := true }) := by
  have lines_eq : file.lines ++ rest =
      file.name ++ '\n' :: (toText file.size.toNat ++ '\n' :: rest) := by
    simp [CatalogFile.lines]
  rw [readFile]
  simp only [lines_eq, getline_line oneLine fits.1,
    getline_line (notMem_toText (by decide) _) (length_toText file.size.toNat_lt)]
  rw [if_pos (Nat.succ_pos _)]
  rfl

/-- All files are read while their names fit. -/
theorem forLoop_readFile {files : List CatalogFile} (fits : ∀ file ∈ files, FitsBuffer file.name)
    (oneLine : ∀ file ∈ files, '\n' ∉ file.name) (rest : List Char) :
    forLoop files.length (fun _ => readFile)
        (desc, { rest := files.flatMap CatalogFile.lines ++ rest, good := true }) =
      (desc.withFiles files, { rest := rest, good := true }) := by
  induction files using List.reverseRecOn generalizing rest with
  | nil => simp [withFiles]
  | append_singleton files file ih =>
      have mem : file ∈ files ++ [file] := by simp
      rw [List.length_append, List.length_singleton, forLoop_succ, List.flatMap_append,
        List.append_assoc, ih (fun f f_mem => fits f (List.mem_append_left _ f_mem))
          (fun f f_mem => oneLine f (List.mem_append_left _ f_mem)), List.flatMap_singleton,
        readFile_lines (fits file mem) (oneLine file mem), withFiles, withFiles, withFiles]
      simp [List.foldl_append, UInt64.add_assoc]

theorem readFile_blocked {stream : StringStream} (blocked : stream.Blocked) :
    (readFile (desc, stream)).1 = desc ∧ (readFile (desc, stream)).2.Blocked := by
  rw [readFile]
  simp only [getline_not_good blocked.getline, lt_irrefl, if_false, true_and]
  exact Or.inl blocked.getline

/-- No file is read behind a line that is not. -/
theorem forLoop_readFile_blocked (count : ℕ) {stream : StringStream} (blocked : stream.Blocked) :
    (forLoop count (fun _ => readFile) (desc, stream)).1 = desc := by
  have kept := forLoop_induction count (fun _ => readFile) (desc, stream)
    (fun _ state => state.1 = desc ∧ state.2.Blocked) ⟨rfl, blocked⟩ ?_
  · exact kept.1
  · rintro _ ⟨_, ss⟩ _ ⟨rfl, ss_blocked⟩
    exact readFile_blocked ss_blocked

end Loop

section Menu

variable (desc : DESC)

theorem continues_of_notMem {text : List Char} (noNul : '\x00' ∉ text) :
    ∀ c ∈ text, decide (c ≠ '\x00') = true := by
  intro c mem
  rw [decide_eq_true_eq]
  rintro rfl
  exact noNul mem

theorem takeWhile_header {type nbStream : ℕ} (body : List Char) :
    (toText type ++ '\n' :: (toText nbStream ++ '\n' :: body)).takeWhile (· ≠ '\x00') =
      toText type ++ '\n' :: (toText nbStream ++ '\n' :: body.takeWhile (· ≠ '\x00')) := by
  rw [List.takeWhile_append_of_pos (continues_of_notMem (notMem_toText (by decide) type)),
    List.takeWhile_cons_of_pos (by decide),
    List.takeWhile_append_of_pos (continues_of_notMem (notMem_toText (by decide) nbStream)),
    List.takeWhile_cons_of_pos (by decide)]

/-- The type and the number of files are read, and then the line with the number is left. -/
theorem extract_header {type nbStream : ℕ} (type_lt : type < 2 ^ 32)
    (nbStream_lt : nbStream < 2 ^ 64) (body : List Char) :
    ∃ second third : StringStream,
      StringStream.extract
        { rest := toText type ++ '\n' :: (toText nbStream ++ '\n' :: body), good := true } 32 =
          (some type, second) ∧
      second.extract 64 = (some nbStream, third) ∧
      third.getline = ([], 1, { rest := body, good := true }) := by
  refine ⟨_, _, @extract_toText 32 type type_lt [] (by simp) _,
    @extract_toText 64 nbStream nbStream_lt ['\n'] (by simp [isSpace_newline]) _, ?_⟩
  exact @getline_line [] (by simp) (by decide) body

theorem makeMenu_full {nbStream : ℕ} (nbStream_lt : nbStream < 2 ^ 64) (body : List Char) :
    desc.makeMenu (toText 0 ++ '\n' :: (toText nbStream ++ '\n' :: body)) =
      some (forLoop nbStream (fun _ => readFile)
        ({ desc with maxFileSize := 0, nbFiles := 0 },
          { rest := body.takeWhile (· ≠ '\x00'), good := true })).1 := by
  rcases extract_header (by decide : 0 < 2 ^ 32) nbStream_lt (body.takeWhile (· ≠ '\x00')) with
    ⟨second, third, type_eq, count_eq, line_eq⟩
  rw [makeMenu, takeWhile_header]
  simp only [type_eq, count_eq, line_eq, Option.getD_some]

theorem makeMenu_compact {nbStream : ℕ} (nbStream_lt : nbStream < 2 ^ 64) (size : UInt64) :
    desc.makeMenu (toText 1 ++ '\n' :: (toText nbStream ++ '\n' ::
        (toText size.toNat ++ ['\n']))) =
      some { fileList := desc.fileList ++ (List.range nbStream).map toText
             fileSize := desc.fileSize ++
               List.replicate nbStream (readSize (toText size.toNat))
             maxFileSize := readSize (toText size.toNat)
             nbFiles := UInt64.ofNat nbStream } := by
  have whole : (toText size.toNat ++ ['\n']).takeWhile (· ≠ '\x00') =
      toText size.toNat ++ ['\n'] :=
    List.takeWhile_eq_self_iff.mpr (continues_of_notMem (by simp [notMem_toText]))
  rcases extract_header (by decide : 1 < 2 ^ 32) nbStream_lt (toText size.toNat ++ ['\n']) with
    ⟨second, third, type_eq, count_eq, line_eq⟩
  have size_eq := getline_line (notMem_toText (by decide) size.toNat)
    (length_toText size.toNat_lt) []
  have loop_eq : ∀ menu : DESC, forLoop nbStream
      (fun i desc => { desc with
        fileList := desc.fileList ++ [toText i]
        fileSize := desc.fileSize ++ [desc.maxFileSize] }) menu =
      { menu with
        fileList := menu.fileList ++ (List.range nbStream).map toText
        fileSize := menu.fileSize ++ List.replicate nbStream menu.maxFileSize } := by
    intro menu
    clear type_eq count_eq line_eq nbStream_lt
    induction nbStream with
    | zero => simp
    | succ count ih =>
        rw [forLoop_succ, ih, List.range_succ, List.map_append, List.replicate_succ']
        simp
  rw [makeMenu, takeWhile_header, whole]
  simp only [type_eq, count_eq, line_eq, size_eq, Option.getD_some, loop_eq]

/-- The first name that does not fit. -/
theorem exists_first_unfit {files : List CatalogFile}
    (unfit : ¬ ∀ file ∈ files, FitsBuffer file.name) :
    ∃ earlier file later, files = earlier ++ file :: later ∧
      (∀ other ∈ earlier, FitsBuffer other.name) ∧ ¬ FitsBuffer file.name := by
  induction files with
  | nil => simp at unfit
  | cons file files ih =>
      by_cases fits : FitsBuffer file.name
      · rw [List.forall_mem_cons] at unfit
        rcases ih fun all => unfit ⟨fits, all⟩ with ⟨earlier, first, later, files_eq, holds, fails⟩
        refine ⟨file :: earlier, first, later, by rw [files_eq, List.cons_append], ?_, fails⟩
        exact List.forall_mem_cons.mpr ⟨fits, holds⟩
      · exact ⟨[], file, files, rfl, by simp, fits⟩

theorem noNul_lines {files : List CatalogFile} (fits : ∀ file ∈ files, FitsBuffer file.name) :
    '\x00' ∉ files.flatMap CatalogFile.lines := by
  rw [List.mem_flatMap]
  rintro ⟨file, file_mem, mem⟩
  rw [CatalogFile.lines, List.mem_append, List.mem_cons, List.mem_append] at mem
  rcases mem with mem | mem | mem | mem
  · exact (fits file file_mem).2 mem
  · exact absurd mem (by decide)
  · exact notMem_toText (by decide) _ mem
  · exact absurd mem (by decide)

/-- A name that does not fit blocks the stream, whether the buffer ends in it or not. -/
theorem blocked_of_unfit {file : CatalogFile} (oneLine : '\n' ∉ file.name)
    (unfit : ¬ FitsBuffer file.name) (rest : List Char) :
    StringStream.Blocked
      { rest := (file.lines ++ rest).takeWhile (· ≠ '\x00'), good := true } := by
  have lines_eq : file.lines ++ rest =
      file.name ++ '\n' :: (toText file.size.toNat ++ '\n' :: rest) := by
    simp [CatalogFile.lines]
  rw [StringStream.Blocked, lines_eq]
  by_cases noNul : '\x00' ∈ file.name
  · right
    left
    have ends : ¬ (file.name.takeWhile (· ≠ '\x00')).length = file.name.length := by
      intro same
      have whole := List.takeWhile_eq_self_iff.mp
        ((List.takeWhile_prefix _).eq_of_length same) '\x00' noNul
      simp at whole
    rw [List.takeWhile_append, if_neg ends]
    exact fun mem => oneLine ((List.takeWhile_prefix _).subset mem)
  · right
    right
    have long : filenameMaxByteSize ≤ file.name.length := by
      by_contra short
      exact unfit ⟨not_le.mp short, noNul⟩
    have first := getline_append oneLine
      ((toText file.size.toNat ++ '\n' :: rest).takeWhile (· ≠ '\x00'))
    rw [List.takeWhile_append_of_pos (continues_of_notMem noNul),
      List.takeWhile_cons_of_pos (by decide)]
    rw [getline, Prod.mk.injEq] at first
    rw [first.1]
    exact long

/-- All names fit, or the files are counted up to one whose name does not. -/
theorem makeMenu_files {files : List CatalogFile} (few : files.length < 2 ^ 64)
    (oneLine : ∀ file ∈ files, '\n' ∉ file.name) :
    ∃ menu, desc.makeMenu (toText 0 ++ '\n' :: (toText files.length ++ '\n' ::
        files.flatMap CatalogFile.lines)) = some menu ∧
      ((∀ file ∈ files, FitsBuffer file.name) ∧
          menu = { desc with maxFileSize := 0, nbFiles := 0 }.withFiles files ∨
        (¬ ∀ file ∈ files, FitsBuffer file.name) ∧ menu.nbFiles.toNat < files.length) := by
  refine ⟨_, makeMenu_full desc few _, ?_⟩
  by_cases fits : ∀ file ∈ files, FitsBuffer file.name
  · left
    refine ⟨fits, ?_⟩
    have loop_eq := @forLoop_readFile { desc with maxFileSize := 0, nbFiles := 0 } files fits
      oneLine []
    rw [List.append_nil] at loop_eq
    rw [List.takeWhile_eq_self_iff.mpr (continues_of_notMem (noNul_lines fits)), loop_eq]
  · right
    refine ⟨fits, ?_⟩
    rcases exists_first_unfit fits with ⟨earlier, file, later, rfl, earlier_fits, unfit⟩
    have stream_eq : ((earlier ++ file :: later).flatMap CatalogFile.lines).takeWhile
        (· ≠ '\x00') = earlier.flatMap CatalogFile.lines ++
          (file.lines ++ later.flatMap CatalogFile.lines).takeWhile (· ≠ '\x00') := by
      rw [List.flatMap_append, List.flatMap_cons,
        List.takeWhile_append_of_pos (continues_of_notMem (noNul_lines earlier_fits))]
    rw [stream_eq, List.length_append, forLoop_add, forLoop_readFile earlier_fits
      (fun other mem => oneLine other (List.mem_append_left _ mem)),
      forLoop_readFile_blocked _ (blocked_of_unfit (oneLine file (by simp)) unfit _)]
    rw [List.length_append] at few
    rw [withFiles, UInt64.zero_add, UInt64.toNat_ofNat', Nat.mod_eq_of_lt (by omega),
      List.length_cons]
    omega

end Menu

end DESC

section Shown

variable {desc menu : DESC} {files shown : List CatalogFile}

/-- A menu with enough sizes shows what its lists start with. -/
theorem shows_iff {maxFileBytesize : UInt64} (few : shown.length < 2 ^ 64)
    (nbFiles_eq : menu.nbFiles = UInt64.ofNat shown.length)
    (enough : shown.length ≤ menu.fileSize.length) :
    menu.Shows shown maxFileBytesize ↔ shown.map CatalogFile.name <+: menu.fileList ∧
      shown.map CatalogFile.size <+: menu.fileSize ∧ menu.maxFileSize = maxFileBytesize := by
  have index_eq : ∀ i < shown.length, (UInt64.ofNat i).toNat = i := fun i i_lt => by
    rw [UInt64.toNat_ofNat', Nat.mod_eq_of_lt (by omega)]
  have name_eq : ∀ i (i_lt : i < shown.length),
      menu.getFileName (UInt64.ofNat i) = menu.fileList[i]? := fun i i_lt => by
    rw [DESC.getFileName, nbFiles_eq, if_pos, index_eq i i_lt]
    rw [UInt64.lt_iff_toNat_lt, index_eq i i_lt, UInt64.toNat_ofNat', Nat.mod_eq_of_lt few]
    exact i_lt
  have size_eq : ∀ i (i_lt : i < shown.length) (size : UInt64),
      menu.getFileSize (UInt64.ofNat i) = size ↔ menu.fileSize[i]? = some size :=
    fun i i_lt size => by
      have inside : i < menu.fileSize.length := by omega
      rw [DESC.getFileSize, index_eq i i_lt, if_pos inside, List.getD_eq_getElem?_getD,
        List.getElem?_eq_getElem inside, Option.getD_some, Option.some.injEq]
  rw [List.prefix_iff_getElem?, List.prefix_iff_getElem?]
  constructor
  · rintro ⟨_, names, sizes, largest⟩
    refine ⟨fun i i_lt => ?_, fun i i_lt => ?_, largest⟩
    · rw [List.length_map] at i_lt
      rw [← name_eq i i_lt, names i i_lt, List.getElem_map]
    · rw [List.length_map] at i_lt
      rw [List.getElem_map, ← size_eq i i_lt]
      exact sizes i i_lt
  · rintro ⟨names, sizes, largest⟩
    simp only [List.length_map, List.getElem_map] at names sizes
    refine ⟨?_, fun i i_lt => ?_, fun i i_lt => ?_, largest⟩
    · rw [DESC.getFilesNum, nbFiles_eq, UInt64.toNat_ofNat', Nat.mod_eq_of_lt few]
    · rw [name_eq i i_lt, names i i_lt]
    · rw [size_eq i i_lt, sizes i i_lt]

theorem largestSize_replicate {count : ℕ} (positive : 0 < count) (size : UInt64) :
    largestSize (List.replicate count size) = size := by
  induction count with
  | zero => exact absurd positive (lt_irrefl 0)
  | succ count ih =>
      rw [List.replicate_succ', largestSize, List.foldl_append]
      rcases Nat.eq_zero_or_pos count with rfl | more
      · change (if (0 : UInt64) < size then size else 0) = size
        split
        next => rfl
        next zero =>
          rw [UInt64.lt_iff_toNat_lt, not_lt] at zero
          exact UInt64.toNat_inj.mp (Nat.le_antisymm (Nat.zero_le _) zero)
      · change (if largestSize (List.replicate count size) < size then size
          else largestSize (List.replicate count size)) = size
        rw [ih more, ite_self]

theorem map_shownFiles_compact {Value : Type} (files : List CatalogFile)
    (value : UInt64 → Value) :
    (shownFiles files false).map (fun file => value file.size) =
      List.replicate files.length (value (largestSize (files.map CatalogFile.size))) := by
  rw [shownFiles, if_neg (by decide), List.map_map, List.eq_replicate_iff]
  constructor
  · simp
  · intro found mem
    rcases List.mem_map.mp mem with ⟨_, _, rfl⟩
    rfl

/-- The largest size of a compact catalog is read back if that of its entries is. -/
theorem largestSize_compact (files : List CatalogFile) :
    readSize (toText (largestSize (files.map CatalogFile.size)).toNat) =
        largestSize (files.map CatalogFile.size) ↔
      largestSize ((shownFiles files false).map fun file => readSize (toText file.size.toNat)) =
        largestSize ((shownFiles files false).map CatalogFile.size) := by
  rw [map_shownFiles_compact files fun size => readSize (toText size.toNat),
    map_shownFiles_compact files fun size => size]
  rcases Nat.eq_zero_or_pos files.length with none | some
  · rw [List.length_eq_zero_iff.mp none]
    exact iff_of_true ((readSize_toText 0).mpr (Or.inl (by decide))) rfl
  · rw [largestSize_replicate some, largestSize_replicate some]

theorem getCatalog_eq (handler : DBHandler) (typeOfCatalog : Bool) :
    handler.getCatalog typeOfCatalog =
      catalogText handler.getNbStream handler.files handler.maxFileBytesize typeOfCatalog := by
  cases handler <;> rfl

theorem exists_shows_full (desc : DESC) (few : files.length < 2 ^ 64)
    (oneLine : ∀ file ∈ files, '\n' ∉ file.name) :
    (∃ menu, desc.makeMenu (toText 0 ++ '\n' :: (toText files.length ++ '\n' ::
        files.flatMap CatalogFile.lines)) = some menu ∧
        menu.Shows files (largestSize (files.map CatalogFile.size))) ↔ desc.Accepts files := by
  rcases desc.makeMenu_files few oneLine with ⟨menu, makes, ⟨fits, rfl⟩ | ⟨unfit, fewer⟩⟩
  · have shows_iff := @shows_iff ({ desc with maxFileSize := 0, nbFiles := 0 }.withFiles files) files
      (largestSize (files.map CatalogFile.size)) few (UInt64.zero_add _)
      (by simp [DESC.withFiles])
    constructor
    · rintro ⟨other, other_makes, other_shows⟩
      obtain rfl := Option.some.inj (makes.symm.trans other_makes)
      rcases shows_iff.mp other_shows with ⟨names, sizes, largest⟩
      exact ⟨fits, names, sizes, largest⟩
    · rintro ⟨_, names, sizes, largest⟩
      exact ⟨_, makes, shows_iff.mpr ⟨names, sizes, largest⟩⟩
  · constructor
    · rintro ⟨other, other_makes, other_shows⟩
      obtain rfl := Option.some.inj (makes.symm.trans other_makes)
      exact absurd other_shows.filesNum fewer.ne
    · exact fun accepts => absurd accepts.fits unfit

theorem exists_shows_compact (desc : DESC) (few : files.length < 2 ^ 64) :
    (∃ menu, desc.makeMenu (toText 1 ++ '\n' :: (toText files.length ++ '\n' ::
        (toText (largestSize (files.map CatalogFile.size)).toNat ++ ['\n']))) = some menu ∧
        menu.Shows (shownFiles files false) (largestSize (files.map CatalogFile.size))) ↔
      desc.Accepts (shownFiles files false) := by
  have length_eq : (shownFiles files false).length = files.length := by simp [shownFiles]
  have makes := desc.makeMenu_compact few (largestSize (files.map CatalogFile.size))
  have names_eq : (shownFiles files false).map CatalogFile.name =
      (List.range files.length).map toText := by
    simp [shownFiles]
  have read_eq := map_shownFiles_compact files fun size => readSize (toText size.toNat)
  have fits : ∀ file ∈ shownFiles files false, FitsBuffer file.name := by
    intro file mem
    rw [shownFiles, if_neg (by decide)] at mem
    rcases List.mem_map.mp mem with ⟨i, i_mem, rfl⟩
    exact fitsBuffer_toText ((List.mem_range.mp i_mem).trans few)
  rw [makes]
  simp only [Option.some.injEq, exists_eq_left']
  rw [shows_iff (by rwa [length_eq]) (by rw [length_eq]) (by simp [length_eq]),
    largestSize_compact, ← names_eq, ← read_eq]
  constructor
  · rintro ⟨names, sizes, largest⟩
    exact ⟨fits, names, sizes, largest⟩
  · rintro ⟨_, names, sizes, largest⟩
    exact ⟨names, sizes, largest⟩

/-- The menu shows the catalog if and only if it accepts what that says. -/
theorem exists_shows_iff (desc : DESC) {handler : DBHandler} (lists : handler.Lists files)
    (few : files.length < 2 ^ 64) (oneLine : ∀ file ∈ files, '\n' ∉ file.name)
    (typeOfCatalog : Bool) :
    (∃ menu, desc.makeMenu (handler.getCatalog typeOfCatalog) = some menu ∧
        menu.Shows (shownFiles files typeOfCatalog) (largestSize (files.map CatalogFile.size))) ↔
      desc.Accepts (shownFiles files typeOfCatalog) := by
  rw [getCatalog_eq, lists.nbStream_eq, lists.files_eq, lists.maxFileBytesize_eq]
  cases typeOfCatalog with
  | true => exact exists_shows_full desc few oneLine
  | false => exact exists_shows_compact desc few

/-- For the first catalog, each file counts by itself. -/
theorem accepts_iff (fileList_eq : desc.fileList = []) (fileSize_eq : desc.fileSize = []) :
    desc.Accepts shown ↔ ∀ file ∈ shown, FitsBuffer file.name ∧ ReadsBack file.size := by
  constructor
  · rintro ⟨fits, _, sizes, _⟩ file mem
    rw [fileSize_eq, List.nil_append] at sizes
    have same := List.map_inj_left.mp (sizes.eq_of_length (by simp)) file mem
    exact ⟨fits file mem, (readSize_toText file.size).mp same.symm⟩
  · intro good
    have same : (shown.map fun file => readSize (toText file.size.toNat)) =
        shown.map CatalogFile.size :=
      List.map_inj_left.mpr fun file mem => (readSize_toText file.size).mpr (good file mem).2
    refine ⟨fun file mem => (good file mem).1, ?_, ?_, by rw [same]⟩
    · rw [fileList_eq, List.nil_append]
    · rw [fileSize_eq, List.nil_append, same]

end Shown

/--
A catalog arrives if and only if its names fit, and the lists kept from earlier catalogs,
followed by its files as they are read, start with its files. For the first catalog this is
that the size of each file is below 2 ^ 31, or the largest one there is.
-/
theorem makeMenu_getCatalog_iff (desc : DESC) {handler : DBHandler} {files : List CatalogFile}
    (lists : handler.Lists files) (few : files.length < 2 ^ 64)
    (oneLine : ∀ file ∈ files, '\n' ∉ file.name) (typeOfCatalog : Bool) :
    ((∃ menu, desc.makeMenu (handler.getCatalog typeOfCatalog) = some menu ∧
        menu.Shows (shownFiles files typeOfCatalog)
          (largestSize (files.map CatalogFile.size))) ↔
      desc.Accepts (shownFiles files typeOfCatalog)) ∧
    (desc.fileList = [] → desc.fileSize = [] →
      (desc.Accepts (shownFiles files typeOfCatalog) ↔
        ∀ file ∈ shownFiles files typeOfCatalog,
          FitsBuffer file.name ∧ ReadsBack file.size)) :=
  ⟨exists_shows_iff desc lists few oneLine typeOfCatalog, accepts_iff⟩

/-- A directory with one file. -/
def oneFile (name : List Char) (size : UInt64) : DBHandler :=
  .directoryProcessor
    { filesSplitting := false, fileList := [name], getFileSize := fun _ => size
      maxFileBytesize := size }

theorem oneFile_lists (name : List Char) (size : UInt64) :
    (oneFile name size).Lists [{ name := name, size := size }] :=
  ⟨rfl, rfl, (largestSize_replicate Nat.one_pos size).symm⟩

def emptyMenu : DESC where
  fileList := []
  fileSize := []
  maxFileSize := 0
  nbFiles := 0

theorem makeMenu_getCatalog_iff_oneFile :
    ((∃ menu, emptyMenu.makeMenu ((oneFile ['a'] 5).getCatalog true) = some menu ∧
        menu.Shows (shownFiles [{ name := ['a'], size := 5 }] true) (largestSize [5])) ↔
      emptyMenu.Accepts (shownFiles [{ name := ['a'], size := 5 }] true)) ∧
    (emptyMenu.fileList = [] → emptyMenu.fileSize = [] →
      (emptyMenu.Accepts (shownFiles [{ name := ['a'], size := 5 }] true) ↔
        ∀ file ∈ shownFiles [{ name := ['a'], size := 5 }] true,
          FitsBuffer file.name ∧ ReadsBack file.size)) :=
  makeMenu_getCatalog_iff emptyMenu (oneFile_lists ['a'] 5) (by decide) (by simp) true

theorem oneFile_shows_iff (desc : DESC) {name : List Char} (oneLine : '\n' ∉ name)
    (size : UInt64) :
    (∃ menu, desc.makeMenu ((oneFile name size).getCatalog true) = some menu ∧
      menu.Shows [{ name := name, size := size }] size) ↔
        desc.Accepts [{ name := name, size := size }] := by
  have shows_iff := exists_shows_iff desc (oneFile_lists name size) (by simp)
    (by simpa using oneLine) true
  have largest_eq : largestSize [size] = size := largestSize_replicate Nat.one_pos size
  rwa [List.map_singleton, largest_eq] at shows_iff

/-- A file of `2 ^ 31` bytes is not shown, and neither is that of a second catalog. -/
theorem not_shows_large_file :
    (¬ ∃ menu, emptyMenu.makeMenu ((oneFile ['a'] 2147483648).getCatalog true) = some menu ∧
      menu.Shows [{ name := ['a'], size := 2147483648 }] 2147483648) ∧
    ∃ first, emptyMenu.makeMenu ((oneFile ['a'] 5).getCatalog true) = some first ∧
      ¬ ∃ menu, first.makeMenu ((oneFile ['b'] 5).getCatalog true) = some menu ∧
        menu.Shows [{ name := ['b'], size := 5 }] 5 := by
  constructor
  · rw [oneFile_shows_iff emptyMenu (by decide), accepts_iff rfl rfl]
    intro good
    rcases (good _ List.mem_cons_self).2 with small | largest
    · exact absurd small (by decide)
    · exact absurd largest (by decide)
  · rcases @DESC.makeMenu_files emptyMenu [{ name := ['a'], size := 5 }] (by decide) (by simp) with
      ⟨first, makes, ⟨_, rfl⟩ | ⟨unfit, _⟩⟩
    · refine ⟨_, makes, ?_⟩
      rw [oneFile_shows_iff _ (by decide)]
      intro accepts
      exact absurd accepts.names (by decide)
    · have fits : FitsBuffer ['a'] := ⟨by decide, by decide⟩
      exact absurd (by simpa using fits) unfit

end Catalog

end Xpir
