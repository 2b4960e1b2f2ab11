import Mathlib.Logic.Function.Basic
import Xpir.Foundations.Conversation
import Xpir.ReplyGenerator.QueryImport
import Xpir.Session.CryptoParams

/-!
# Query sessions

A client and a server agree on a cryptosystem and on the dimensions of the database, and
then the client uploads the elements of a query. In a client-driven session the client
sends the text of its cryptosystem, its key and the dimensions. In a server-driven session
the server sends the text and the dimensions, and only the key comes from the client. All
sizes are computed by each end from its own objects.

`agrees_iff` says when both ends hold the same parameters in the end, and the server holds
each query element where it belongs. There are five ways to miss this: the server writes
an entry after the last dimension, the text of a cryptosystem may not describe it, the
size of a key may overflow, the size of a query element may be less than that of a ciphertext,
and the index of an element is an `int`.
-/

namespace Xpir

namespace QuerySession

open CryptoMethod

/-! ## Texts and numbers -/

def encodeText (text : List Char) : List UInt8 := text.map fun c => UInt8.ofNat c.toNat

/-- The text in a buffer, which ends at the first zero. -/
def decodeText (bytes : List UInt8) : List Char :=
  (bytes.takeWhile (· ≠ 0)).map fun byte => Char.ofNat byte.toNat

theorem decodeText_encodeText {text : List Char} (isText : IsText text) :
    decodeText (encodeText text) = text := by
  have byte_eq : ∀ c ∈ text, (UInt8.ofNat c.toNat).toNat = c.toNat := by
    intro c mem
    rw [UInt8.toNat_ofNat', Nat.mod_eq_of_lt (isText c mem).2]
  have whole : (encodeText text).takeWhile (· ≠ 0) = encodeText text := by
    rw [List.takeWhile_eq_self_iff]
    intro byte mem
    rcases List.mem_map.mp mem with ⟨c, c_mem, rfl⟩
    have pos := (isText c c_mem).1
    rw [← byte_eq c c_mem] at pos
    simp only [ne_eq, decide_not, Bool.not_eq_eq_eq_not, Bool.not_true, decide_eq_false_iff_not]
    intro zero
    rw [zero] at pos
    exact absurd pos (by decide)
  rw [decodeText, whole, encodeText, List.map_map]
  conv_rhs => rw [← List.map_id text]
  refine List.map_congr_left fun c mem => ?_
  rw [Function.comp_apply, byte_eq c mem, Char.ofNat_toNat, id]

def sendInt (word : UInt32) : Process Unit := Process.send (writeInt word)

def receiveInt : Process UInt32 := do
  let bytes ← Process.receive 4
  pure (UInt32.ofNat (decodeBytes bytes))

/-! ## Both ends -/

/-- An entry of the array of dimensions. -/
def storeN (pirParams : RawPIRParameters) (i : ℕ) (size : UInt32) : Process RawPIRParameters :=
  if i < maxRecLvl then pure (pirParams.setN i size) else .failed

/-- What the end that drives the session sends of the dimensions. -/
def writePirParams (pirParams : RawPIRParameters) : Process Unit := do
  sendInt pirParams.d
  sendInt pirParams.alpha
  (List.range pirParams.d.toNat).foldlM (fun _ i => sendInt (pirParams.n i)) ()

def readPirParams : Process RawPIRParameters := do
  let d ← receiveInt
  let alpha ← receiveInt
  (List.range d.toNat).foldlM
    (fun pirParams i => do
      let size ← receiveInt
      storeN pirParams i size)
    { RawPIRParameters.initial with d := d, alpha := alpha }

def sendText (text : List Char) : Process Unit := do
  sendInt (UInt32.ofNat text.length)
  Process.send (encodeText text)

/-- The size in bytes of a query element; the levels start at one. -/
def querySize (cryptoMethod : CryptoMethod) (j : ℕ) : ℕ :=
  (cryptoMethod.getQuerySizeFromRecLvl (UInt32.ofNat (j + 1))).toNat / 8

/-! ## The client -/

/-- What the client holds in the end. -/
structure ClientEnd where
  cryptoMethod : CryptoMethod
  pirParams : RawPIRParameters

/-- What `encrypt` has written for a query element. -/
abbrev Element := ℕ → UInt8

/-- The memory of a query element. -/
def elementBytes (cryptoMethod : CryptoMethod) (elements : ℕ → ℕ → Element) (j i : ℕ) :
    List UInt8 :=
  (List.range (cryptoMethod.elementSize (UInt32.ofNat (j + 1)))).map (elements j i)

namespace PIRClientSimple

def sendPirParams (pirParams : RawPIRParameters) : Process Unit := writePirParams pirParams

def rcvPirParams : Process RawPIRParameters := readPirParams

def sendParams (paramsandkey : Bool) (cryptoMethod : CryptoMethod) : Process Unit :=
  if paramsandkey then sendText cryptoMethod.getSerializedParams else pure ()

def sendCryptoParams (paramsandkey : Bool) (cryptoMethod : CryptoMethod) (beyond : ℕ → UInt8) :
    Process Unit := do
  sendParams paramsandkey cryptoMethod
  sendInt (UInt32.ofNat cryptoMethod.keySize)
  Process.send (cryptoMethod.sentKey beyond)

/-- There is no buffer of a negative size. -/
def rcvCryptoParams : Process (List Char) := do
  let size ← receiveInt
  if 2 ^ 31 ≤ size.toNat then .failed
  else do
    let bytes ← Process.receive size.toNat
    pure (decodeText bytes)

/-- The first bytes of the element in front of the queue. -/
def uploadElement (size : ℕ) : List (List UInt8) → Process (List (List UInt8))
  | [] => .failed
  | tmp :: queue =>
      if size ≤ tmp.length then do
        Process.send (tmp.take size)
        pure queue
      else .failed

def uploadWorker (cryptoMethod : CryptoMethod) (pirParams : RawPIRParameters)
    (queryBuffer : List (List UInt8)) : Process (List (List UInt8)) :=
  (List.range pirParams.d.toNat).foldlM
    (fun queue j => (List.range (pirParams.n j).toNat).foldlM
      (fun queue _ => uploadElement (querySize cryptoMethod j) queue) queue)
    queryBuffer

/-- The elements in the order in which a query is generated. -/
def generated (cryptoMethod : CryptoMethod) (pirParams : RawPIRParameters)
    (elements : ℕ → ℕ → Element) (levels : List ℕ) : List (List UInt8) :=
  levels.flatMap fun j =>
    (List.range (pirParams.n j).toNat).map (elementBytes cryptoMethod elements j)

def upload (cryptoMethod : CryptoMethod) (pirParams : RawPIRParameters)
    (elements : ℕ → ℕ → Element) : Process (List (List UInt8)) :=
  uploadWorker cryptoMethod pirParams
    (generated cryptoMethod pirParams elements (List.range pirParams.d.toNat))

def clientDriven (cryptoMethod : CryptoMethod) (pirParams : RawPIRParameters)
    (elements : ℕ → ℕ → Element) (beyond : ℕ → UInt8) : Process ClientEnd := do
  sendCryptoParams true cryptoMethod beyond
  sendPirParams pirParams
  let _ ← upload cryptoMethod pirParams elements
  pure ⟨cryptoMethod, pirParams⟩

def serverDriven (keygen : Keygen) (elements : ℕ → ℕ → Element) (beyond : ℕ → UInt8) :
    Process ClientEnd := do
  let text ← rcvCryptoParams
  let cryptoMethod ← Process.ofOption (getCryptoMethod keygen text)
  sendCryptoParams false cryptoMethod beyond
  let pirParams ← rcvPirParams
  let _ ← upload cryptoMethod pirParams elements
  pure ⟨cryptoMethod, pirParams⟩

end PIRClientSimple

/-! ## The server -/

/-- The query elements that a reply generator holds, by dimension and index. -/
abbrev Queries := ℕ → ℕ → Option QueryCell

/-- What the server holds in the end. -/
structure ServerEnd where
  cryptoMethod : CryptoMethod
  pirParams : RawPIRParameters
  queries : Queries

namespace PIRSession

/-- An entry is written after the last dimension. -/
def rcvPirParams : Process RawPIRParameters := do
  let pirParams ← readPirParams
  storeN pirParams pirParams.d.toNat 1

def sendPirParams (pirParams : RawPIRParameters) : Process RawPIRParameters := do
  writePirParams pirParams
  storeN pirParams pirParams.d.toNat 1

def sendCryptoParams (text : List Char) : Process Unit := sendText text

/-- A session that has no cryptosystem yet receives its text. -/
def rcvParams (keygen : Keygen) : Option CryptoMethod → Process CryptoMethod
  | none => do
      let size ← receiveInt
      let bytes ← Process.receive size.toNat
      Process.ofOption (getCryptoMethod keygen (decodeText bytes))
  | some cryptoMethod => pure cryptoMethod

def rcvCryptoParams (keygen : Keygen) (cryptoMethod : Option CryptoMethod) :
    Process CryptoMethod := do
  let cryptoMethod ← rcvParams keygen cryptoMethod
  let size ← receiveInt
  let key ← Process.receive size.toNat
  Process.ofOption (cryptoMethod.receiveKey key)

/-- The words of a ciphertext are read beyond a shorter element; the index is an `int`. -/
def pushQuery (cryptoMethod : CryptoMethod) (queries : Queries) (rawQuery : List UInt8)
    (dim nbr : ℕ) : Process Queries :=
  if cryptoMethod.readBytes ≤ rawQuery.length ∧ nbr < 2 ^ 31 then
    pure (Function.update queries dim
      (Function.update (queries dim) nbr (some (cryptoMethod.queryCell rawQuery))))
  else .failed

def downloadElement (cryptoMethod : CryptoMethod) (j : ℕ) (queries : Queries) (i : ℕ) :
    Process Queries := do
  let buf ← Process.receive (querySize cryptoMethod j)
  pushQuery cryptoMethod queries buf j i

def downloadWorker (cryptoMethod : CryptoMethod) (pirParams : RawPIRParameters) :
    Process Queries :=
  (List.range pirParams.d.toNat).foldlM
    (fun queries j => (List.range (pirParams.n j).toNat).foldlM
      (downloadElement cryptoMethod j) queries)
    fun _ _ => none

def clientDriven (keygen : Keygen) : Process ServerEnd := do
  let cryptoMethod ← rcvCryptoParams keygen none
  let pirParams ← rcvPirParams
  let queries ← downloadWorker cryptoMethod pirParams
  pure ⟨cryptoMethod, pirParams, queries⟩

def serverDriven (keygen : Keygen) (cryptoMethod : CryptoMethod) (pirParams : RawPIRParameters)
    (text : List Char) : Process ServerEnd := do
  sendCryptoParams text
  let cryptoMethod ← rcvCryptoParams keygen (some cryptoMethod)
  let pirParams ← sendPirParams pirParams
  let queries ← downloadWorker cryptoMethod pirParams
  pure ⟨cryptoMethod, pirParams, queries⟩

end PIRSession

/-- What the two ends have agreed on when the query has been uploaded. -/
structure Agree (elements : ℕ → ℕ → Element) (client : ClientEnd) (server : ServerEnd) :
    Prop where
  d_eq : server.pirParams.d = client.pirParams.d
  alpha_eq : server.pirParams.alpha = client.pirParams.alpha
  n_eq : ∀ i < client.pirParams.d.toNat, server.pirParams.n i = client.pirParams.n i
  params_eq : server.cryptoMethod.getSerializedParams = client.cryptoMethod.getSerializedParams
  stored : ∀ j < client.pirParams.d.toNat, ∀ i < (client.pirParams.n j).toNat,
    server.queries j i =
      some (client.cryptoMethod.queryCell (elementBytes client.cryptoMethod elements j i))

/-! ## The reception of the dimensions -/

section Reception

theorem runOn_receiveInt (input : List UInt8) : receiveInt.runOn input = readInt input := by
  change (readBytes 4 input).bind _ = (readBytes 4 input).map _
  rw [Option.map_eq_bind]
  rfl

/-- The loops of the two receptions, as long as they stay in the array. -/
theorem runOn_foldlM_storeN (params : RawPIRParameters) (input : List UInt8) (count : ℕ) :
    ((List.range count).foldlM
      (fun pirParams i => do
        let size ← receiveInt
        storeN pirParams i size) params).runOn input =
      if count ≤ maxRecLvl then
        let state := forLoop count Reception.rcvN { params := params, input := some input }
        state.input.map fun rest => (state.params, rest)
      else none := by
  rw [Process.runOn_foldlM]
  induction count with
  | zero => rfl
  | succ count ih =>
      rw [foldlM_range_succ, ih, forLoop_succ]
      generalize forLoop count Reception.rcvN { params := params, input := some input } = state
      by_cases inside : count < maxRecLvl
      · rw [if_pos inside.le, if_pos (Nat.succ_le_of_lt inside)]
        rcases state with ⟨received, _ | rest⟩
        · rfl
        · rw [Option.map_some, Option.bind_some, Process.runOn_bind, runOn_receiveInt,
            Reception.rcvN, Option.bind_some]
          cases readInt rest with
          | none => rfl
          | some taken =>
              rw [Option.bind_some, storeN, if_pos inside]
              rfl
      · rw [if_neg (by omega : ¬ count + 1 ≤ maxRecLvl)]
        by_cases last : count ≤ maxRecLvl
        · rw [if_pos last]
          rcases state with ⟨received, _ | rest⟩
          · rfl
          · rw [Option.map_some, Option.bind_some, Process.runOn_bind]
            cases receiveInt.runOn rest with
            | none => rfl
            | some taken =>
                rw [Option.bind_some, storeN, if_neg inside]
                rfl
        · rw [if_neg last]
          rfl

theorem forLoop_rcvN_none {state : Reception} (failed : state.input = none) (count : ℕ) :
    (forLoop count Reception.rcvN state).input = none := by
  induction count with
  | zero => exact failed
  | succ count ih => rw [forLoop_succ, Reception.rcvN, ih, Option.bind_none]

/-- A session receives what is read of a stream, as long as it stays in the array. -/
theorem runOn_readPirParams (input : List UInt8) :
    readPirParams.runOn input =
      let state := Reception.rcvAll input
      if state.params.d.toNat ≤ maxRecLvl then
        state.input.map fun rest => (state.params, rest)
      else none := by
  rw [readPirParams, Process.runOn_bind, runOn_receiveInt, Reception.rcvAll, Reception.rcvD,
    Option.bind_some]
  cases readInt input with
  | none =>
      have failed := @forLoop_rcvN_none
        (Reception.rcvAlpha { params := .initial, input := none }) rfl
      simp only [Option.bind_none, failed, Option.map_none, ite_self]
  | some first =>
      rw [Option.bind_some, Process.runOn_bind, runOn_receiveInt, Reception.rcvAlpha,
        Option.bind_some]
      cases readInt first.2 with
      | none =>
          simp only [Option.bind_none, forLoop_rcvN_none, Option.map_none, ite_self]
      | some second =>
          rcases forLoop_rcvN
            { RawPIRParameters.initial with d := first.1, alpha := second.1 } second.2
            first.1.toNat with ⟨d_eq, _⟩
          rw [Option.bind_some, runOn_foldlM_storeN]
          simp only [d_eq]

theorem runOn_rcvPirParams_client (input : List UInt8) :
    (PIRClientSimple.rcvPirParams.runOn input).map Prod.fst =
      let outcome := Xpir.PIRClientSimple.rcvPirParams input
      if outcome.used ∧ outcome.params.d.toNat ≤ maxRecLvl then some outcome.params
      else none := by
  rw [PIRClientSimple.rcvPirParams, runOn_readPirParams, Xpir.PIRClientSimple.rcvPirParams]
  generalize Reception.rcvAll input = state
  rcases state with ⟨params, _ | rest⟩
  · simp
  · by_cases inside : params.d.toNat ≤ maxRecLvl <;> simp [inside]

theorem runOn_rcvPirParams_session (input : List UInt8) :
    (PIRSession.rcvPirParams.runOn input).map Prod.fst =
      let outcome := Xpir.PIRSession.rcvPirParams input
      if outcome.used ∧ outcome.params.d.toNat < maxRecLvl then some outcome.params
      else none := by
  rw [PIRSession.rcvPirParams, Process.runOn_bind, runOn_readPirParams,
    Xpir.PIRSession.rcvPirParams]
  generalize Reception.rcvAll input = state
  rcases state with ⟨params, _ | rest⟩
  · simp
  · by_cases inside : params.d.toNat < maxRecLvl
    · rw [if_pos inside.le, Option.map_some, Option.bind_some, storeN, if_pos inside,
        if_pos ⟨rfl, inside⟩]
      rfl
    · by_cases last : params.d.toNat ≤ maxRecLvl <;> simp [inside, last, storeN, Process.runOn]

end Reception

/-! ## The generator of the lattice based cryptosystems -/

section Import

variable {params : LWEParameters} {poly : PolyShape}

theorem elementsFit_iff_fits (degree : poly.polyDegree = params.polyDegree.toNat)
    (nbModuli : poly.nbModuli = params.nbModuli) :
    (LWE params).ElementsFit ↔ poly.queryCrypto.Fits := by
  have degree_le : params.polyDegree.toNat ≤ NFLlib.kMaxPolyDegree := degree ▸ poly.polyDegree_le
  rw [poly.queryCrypto_fits_iff, nbModuli]
  refine and_iff_left_of_imp fun few => ?_
  calc params.nbModuli * params.polyDegree.toNat ≤ 15 * NFLlib.kMaxPolyDegree :=
        Nat.mul_le_mul few degree_le
    _ < 2 ^ 25 := by decide

/-- The session stores an element in an allocated slot exactly if the import of queries does. -/
theorem pushQuery_finished_iff (degree : poly.polyDegree = params.polyDegree.toNat)
    (nbModuli : poly.nbModuli = params.nbModuli) {generator : QueryImport}
    {buffer : QueriesBuffer} (queriesBuf_eq : generator.queriesBuf = some buffer) {dim nbr : ℕ}
    (dim_lt : dim < buffer.allocated.d) (nbr_lt : nbr < buffer.allocated.n dim)
    (raw : poly.queryCrypto.RawQuery) (queries : Queries) {rawQuery : List UInt8} {j : ℕ}
    (arrived : rawQuery.length = querySize (LWE params) j) :
    (∃ queries', PIRSession.pushQuery (LWE params) queries rawQuery dim nbr =
        .finished queries') ↔
      (generator.pushQueryAt poly.queryCrypto raw dim nbr).isSome := by
  have reads_iff : (LWE params).readBytes ≤ rawQuery.length ↔ poly.queryCrypto.Fits := by
    rw [arrived, ← elementsFit_iff_fits degree nbModuli]
    exact (LWE params).readBytes_le_iff _
  rw [PIRSession.pushQuery, QueryImport.pushQueryAt, queriesBuf_eq, Option.bind_some]
  by_cases stores : poly.queryCrypto.Fits ∧ nbr < 2 ^ 31
  · rw [if_pos ⟨reads_iff.mpr stores.1, stores.2⟩,
      if_pos ⟨stores.1, dim_lt, stores.2, nbr_lt⟩]
    exact iff_of_true ⟨_, rfl⟩ rfl
  · rw [if_neg fun holds => stores ⟨reads_iff.mp holds.1, holds.2⟩,
      if_neg fun holds => stores ⟨holds.1, holds.2.2.1⟩]
    simp

end Import

/-! ## The exchanges -/

section Exchanges

theorem exchange_int (word : UInt32) : Exchange (sendInt word) receiveInt () word := by
  have sent : Exchange (sendInt word) (Process.receive 4) () (writeInt word) := by
    simpa [sendInt] using Exchange.send_receive (writeInt word)
  have word_lt : word.toNat < 256 ^ 4 := word.toNat_lt
  refine sent.bind_right ?_
  rw [writeInt, decodeBytes_encodeBytes, Nat.mod_eq_of_lt word_lt, UInt32.ofNat_toNat]
  rfl

theorem storeN_eq {pirParams : RawPIRParameters} {i : ℕ} (size : UInt32) (inside : i < maxRecLvl) :
    storeN pirParams i size = .finished (pirParams.setN i size) := if_pos inside

/-- The dimensions as they arrive. -/
structure Received (sent received : RawPIRParameters) : Prop where
  d_eq : received.d = sent.d
  alpha_eq : received.alpha = sent.alpha
  n_eq : ∀ i < sent.d.toNat, received.n i = sent.n i

theorem Received.setN {sent received : RawPIRParameters} (arrived : Received sent received)
    (size : UInt32) : Received sent (received.setN sent.d.toNat size) where
  d_eq := arrived.d_eq
  alpha_eq := arrived.alpha_eq
  n_eq := by
    intro i i_lt
    rw [RawPIRParameters.setN_n, Function.update_of_ne (Nat.ne_of_lt i_lt)]
    exact arrived.n_eq i i_lt

theorem exchange_pirParams {sent : RawPIRParameters} (d_le : sent.d.toNat ≤ maxRecLvl) :
    ∃ received, Exchange (writePirParams sent) readPirParams () received ∧
      Received sent received := by
  have loop := Exchange.foldlM
    (fun _ i => sendInt (sent.n i))
    (fun received i => do
      let size ← receiveInt
      storeN received i size)
    (fun rest _ received => received.d = sent.d ∧ received.alpha = sent.alpha ∧
      (∀ i ∈ rest, i < maxRecLvl) ∧ ∀ i < sent.d.toNat, i ∉ rest → received.n i = sent.n i)
    (by
      rintro i rest _ received ⟨d_eq, alpha_eq, inside, n_eq⟩
      have i_lt := inside i List.mem_cons_self
      refine ⟨(), received.setN i (sent.n i),
        (exchange_int (sent.n i)).bind_right (storeN_eq _ i_lt), d_eq, alpha_eq,
        fun j mem => inside j (List.mem_cons_of_mem _ mem), ?_⟩
      intro j j_lt notMem
      by_cases same : j = i
      · rw [same, RawPIRParameters.setN_n, Function.update_self]
      · rw [RawPIRParameters.setN_n, Function.update_of_ne same]
        exact n_eq j j_lt (by simp [same, notMem]))
    (List.range sent.d.toNat) ()
    { RawPIRParameters.initial with d := sent.d, alpha := sent.alpha }
    ⟨rfl, rfl, fun i mem => (List.mem_range.mp mem).trans_le d_le,
      fun i i_lt notMem => absurd (List.mem_range.mpr i_lt) notMem⟩
  rcases loop with ⟨_, received, exchange, d_eq, alpha_eq, _, n_eq⟩
  exact ⟨received, (exchange_int sent.d).bind ((exchange_int sent.alpha).bind exchange),
    d_eq, alpha_eq, fun i i_lt => n_eq i i_lt (List.not_mem_nil)⟩

/-- The elements of a dimension fit, and their indices do. -/
def DimensionFits (cryptoMethod : CryptoMethod) (count : ℕ) : Prop :=
  0 < count → cryptoMethod.ElementsFit ∧ count ≤ 2 ^ 31

section Elements

variable {client server : CryptoMethod} (elements : ℕ → ℕ → Element)

@[simp]
theorem length_elementBytes (cryptoMethod : CryptoMethod) (j i : ℕ) :
    (elementBytes cryptoMethod elements j i).length =
      cryptoMethod.elementSize (UInt32.ofNat (j + 1)) := by
  rw [elementBytes, List.length_map, List.length_range]

/-- What the server has after an element, of which it may have received the beginning. -/
theorem exchange_element (configured : client.Configured) (same : client.SameElements server)
    (later : List (List UInt8)) (queries : Queries) (j i : ℕ) :
    (client.ElementsFit ∧ i < 2 ^ 31 → Exchange
      (PIRClientSimple.uploadElement (querySize client j)
        (elementBytes client elements j i :: later))
      (PIRSession.downloadElement server j queries i) later
      (Function.update queries j (Function.update (queries j) i
        (some (client.queryCell (elementBytes client elements j i)))))) ∧
    (¬ (client.ElementsFit ∧ i < 2 ^ 31) → Fails
      (PIRClientSimple.uploadElement (querySize client j)
        (elementBytes client elements j i :: later))
      (PIRSession.downloadElement server j queries i)) := by
  have size_eq : querySize server j = querySize client j := by
    rw [querySize, querySize, same.sizes]
  have inside : querySize client j ≤ (elementBytes client elements j i).length := by
    rw [length_elementBytes]
    exact client.querySize_le configured _
  have sent_length : ((elementBytes client elements j i).take (querySize client j)).length =
      querySize client j := by
    rw [List.length_take, min_eq_left inside]
  have sent : Exchange
      (Process.send ((elementBytes client elements j i).take (querySize client j)))
      (Process.receive (querySize server j)) ()
      ((elementBytes client elements j i).take (querySize client j)) := by
    have whole := Exchange.send_receive
      ((elementBytes client elements j i).take (querySize client j))
    rw [sent_length] at whole
    rwa [size_eq]
  have reads_iff : server.readBytes ≤
      ((elementBytes client elements j i).take (querySize client j)).length ↔
        client.ElementsFit := by
    rw [same.readBytes_eq, sent_length]
    exact client.readBytes_le_iff _
  rw [PIRClientSimple.uploadElement, if_pos inside]
  constructor
  · intro fits
    have whole : (elementBytes client elements j i).take (querySize client j) =
        elementBytes client elements j i := by
      apply List.take_of_length_le
      rw [length_elementBytes]
      exact (client.querySize_eq configured fits.1 _).ge
    refine sent.bind ?_
    rw [PIRSession.pushQuery, if_pos ⟨reads_iff.mpr fits.1, fits.2⟩, same.queryCell_eq, whole]
    exact .finished
  · intro outside
    refine sent.bind_fails ?_
    rw [PIRSession.pushQuery, if_neg fun fits => outside ⟨reads_iff.mp fits.1, fits.2⟩]
    exact .failed

/-- The elements of one dimension. -/
theorem exchange_dimension (configured : client.Configured) (same : client.SameElements server)
    {count : ℕ} (fits : DimensionFits client count) (j : ℕ) (later : List (List UInt8))
    (queries : Queries) :
    ∃ queries', Exchange
        ((List.range count).foldlM
          (fun queue _ => PIRClientSimple.uploadElement (querySize client j) queue)
          ((List.range count).map (elementBytes client elements j) ++ later))
        ((List.range count).foldlM (PIRSession.downloadElement server j) queries) later queries' ∧
      (∀ i < count, queries' j i = some (client.queryCell (elementBytes client elements j i))) ∧
      ∀ j' ≠ j, queries' j' = queries j' := by
  have loop := Exchange.foldlM
    (fun queue _ => PIRClientSimple.uploadElement (querySize client j) queue)
    (PIRSession.downloadElement server j)
    (fun rest queue current =>
      queue = rest.map (elementBytes client elements j) ++ later ∧ (∀ i ∈ rest, i < count) ∧
      (∀ i < count, i ∉ rest →
        current j i = some (client.queryCell (elementBytes client elements j i))) ∧
      ∀ j' ≠ j, current j' = queries j')
    (by
      rintro i rest _ current ⟨rfl, inside, stored, others⟩
      have i_lt := inside i List.mem_cons_self
      have fit := fits (Nat.zero_lt_of_lt i_lt)
      refine ⟨_, _, (exchange_element elements configured same _ current j i).1
        ⟨fit.1, i_lt.trans_le fit.2⟩, rfl, fun i' mem => inside i' (List.mem_cons_of_mem _ mem),
        ?_, ?_⟩
      · intro i' i'_lt notMem
        rw [Function.update_self]
        by_cases same_index : i' = i
        · rw [same_index, Function.update_self]
        · rw [Function.update_of_ne same_index]
          exact stored i' i'_lt (by simp [same_index, notMem])
      · intro j' ne
        rw [Function.update_of_ne ne, others j' ne])
    (List.range count) _ queries
    ⟨rfl, fun i mem => List.mem_range.mp mem,
      fun i i_lt notMem => absurd (List.mem_range.mpr i_lt) notMem, fun _ _ => rfl⟩
  rcases loop with ⟨_, queries', exchange, rfl, _, stored, others⟩
  exact ⟨queries', exchange, fun i i_lt => stored i i_lt List.not_mem_nil, others⟩

/-- One of the elements of the dimension does not arrive. -/
theorem fails_dimension (configured : client.Configured) (same : client.SameElements server)
    {count : ℕ} (overflow : ¬ DimensionFits client count) (j : ℕ) (later : List (List UInt8))
    (queries : Queries) :
    Fails
      ((List.range count).foldlM
        (fun queue _ => PIRClientSimple.uploadElement (querySize client j) queue)
        ((List.range count).map (elementBytes client elements j) ++ later))
      ((List.range count).foldlM (PIRSession.downloadElement server j) queries) := by
  have outside : ∃ i ∈ List.range count, ¬ (client.ElementsFit ∧ i < 2 ^ 31) := by
    simp only [DimensionFits, not_forall] at overflow
    rcases overflow with ⟨count_pos, not_fit⟩
    by_cases fit : client.ElementsFit
    · refine ⟨count - 1, List.mem_range.mpr (by omega), fun both => not_fit ⟨fit, ?_⟩⟩
      have last_lt := both.2
      omega
    · exact ⟨0, List.mem_range.mpr count_pos, fun both => fit both.1⟩
  refine Exchange.foldlM_fails _ _
    (fun rest queue _ => queue = rest.map (elementBytes client elements j) ++ later ∧
      ∃ i ∈ rest, ¬ (client.ElementsFit ∧ i < 2 ^ 31)) ?_ ?_ _ _ _ ⟨rfl, outside⟩
  · rintro i rest _ current ⟨rfl, outside⟩
    have element := exchange_element elements configured same
      (rest.map (elementBytes client elements j) ++ later) current j i
    by_cases fits : client.ElementsFit ∧ i < 2 ^ 31
    · refine Or.inl ⟨_, _, element.1 fits, rfl, ?_⟩
      rcases outside with ⟨i', mem, not_fits⟩
      rcases List.mem_cons.mp mem with rfl | later_mem
      · exact absurd fits not_fits
      · exact ⟨i', later_mem, not_fits⟩
    · exact Or.inr (element.2 fits)
  · rintro _ _ ⟨_, _, mem, _⟩
    exact absurd mem List.not_mem_nil

/-- All elements of a query fit, where there are any. -/
def QueryFits (cryptoMethod : CryptoMethod) (pirParams : RawPIRParameters) : Prop :=
  ∀ j < pirParams.d.toNat, DimensionFits cryptoMethod (pirParams.n j).toNat

variable {sent received : RawPIRParameters}

/-- Both ends go through the same dimensions with the same sizes. -/
theorem exchange_query (configured : client.Configured) (same : client.SameElements server)
    (arrived : Received sent received) (fits : QueryFits client sent) :
    ∃ queries, Exchange (PIRClientSimple.upload client sent elements)
        (PIRSession.downloadWorker server received) [] queries ∧
      ∀ j < sent.d.toNat, ∀ i < (sent.n j).toNat,
        queries j i = some (client.queryCell (elementBytes client elements j i)) := by
  have loop := Exchange.foldlM
    (fun queue j => (List.range (sent.n j).toNat).foldlM
      (fun queue _ => PIRClientSimple.uploadElement (querySize client j) queue) queue)
    (fun queries j => (List.range (received.n j).toNat).foldlM
      (PIRSession.downloadElement server j) queries)
    (fun rest queue current =>
      queue = PIRClientSimple.generated client sent elements rest ∧
      (∀ j ∈ rest, j < sent.d.toNat) ∧
      ∀ j < sent.d.toNat, j ∉ rest → ∀ i < (sent.n j).toNat,
        current j i = some (client.queryCell (elementBytes client elements j i)))
    (by
      rintro j rest _ current ⟨rfl, inside, stored⟩
      have j_lt := inside j List.mem_cons_self
      rcases exchange_dimension elements configured same (fits j j_lt) j
        (PIRClientSimple.generated client sent elements rest) current with
        ⟨queries', exchange, new, others⟩
      rw [arrived.n_eq j j_lt]
      refine ⟨_, queries', exchange, rfl, fun j' mem => inside j' (List.mem_cons_of_mem _ mem), ?_⟩
      intro j' j'_lt notMem i i_lt
      by_cases same_dimension : j' = j
      · subst same_dimension
        exact new i i_lt
      · rw [others j' same_dimension]
        exact stored j' j'_lt (by simp [same_dimension, notMem]) i i_lt)
    (List.range sent.d.toNat) _ (fun _ _ => none)
    ⟨rfl, fun j mem => List.mem_range.mp mem,
      fun j j_lt notMem => absurd (List.mem_range.mpr j_lt) notMem⟩
  rcases loop with ⟨_, queries, exchange, rfl, _, stored⟩
  refine ⟨queries, ?_, fun j j_lt => stored j j_lt List.not_mem_nil⟩
  rw [PIRSession.downloadWorker, arrived.d_eq]
  exact exchange

theorem fails_query (configured : client.Configured) (same : client.SameElements server)
    (arrived : Received sent received) (overflow : ¬ QueryFits client sent) :
    Fails (PIRClientSimple.upload client sent elements)
      (PIRSession.downloadWorker server received) := by
  have outside : ∃ j ∈ List.range sent.d.toNat, ¬ DimensionFits client (sent.n j).toNat := by
    simpa [QueryFits] using overflow
  rw [PIRSession.downloadWorker, arrived.d_eq]
  refine Exchange.foldlM_fails _ _
    (fun rest queue _ => queue = PIRClientSimple.generated client sent elements rest ∧
      (∀ j ∈ rest, j < sent.d.toNat) ∧ ∃ j ∈ rest, ¬ DimensionFits client (sent.n j).toNat)
    ?_ ?_ _ _ _ ⟨rfl, fun j mem => List.mem_range.mp mem, outside⟩
  · rintro j rest _ current ⟨rfl, inside, outside⟩
    rw [arrived.n_eq j (inside j List.mem_cons_self)]
    by_cases fits : DimensionFits client (sent.n j).toNat
    · rcases exchange_dimension elements configured same fits j
        (PIRClientSimple.generated client sent elements rest) current with
        ⟨queries', exchange, _⟩
      refine Or.inl ⟨_, _, exchange, rfl, fun j' mem => inside j' (List.mem_cons_of_mem _ mem), ?_⟩
      rcases outside with ⟨j', mem, not_fits⟩
      rcases List.mem_cons.mp mem with rfl | later_mem
      · exact absurd fits not_fits
      · exact ⟨j', later_mem, not_fits⟩
    · exact Or.inr (fails_dimension elements configured same fits j _ current)
  · rintro _ _ ⟨_, _, _, mem, _⟩
    exact absurd mem List.not_mem_nil

end Elements

/-- A text, and what the party on the right does with it. -/
theorem exchange_text {Right : Type} {text : List Char} (isText : IsText text)
    (length_lt : text.length < 2 ^ 32) (next : List Char → Process Right) :
    (∀ result, next text = .finished result → Exchange (sendText text)
      (do
        let size ← receiveInt
        let bytes ← Process.receive size.toNat
        next (decodeText bytes))
      () result) ∧
    (next text = .failed → Fails (sendText text)
      (do
        let size ← receiveInt
        let bytes ← Process.receive size.toNat
        next (decodeText bytes))) := by
  have size_eq : (UInt32.ofNat text.length).toNat = (encodeText text).length := by
    rw [UInt32.toNat_ofNat', encodeText, List.length_map, Nat.mod_eq_of_lt length_lt]
  constructor
  · intro result ends
    refine (exchange_int _).bind ?_
    rw [size_eq]
    exact (Exchange.send_receive _).bind_right (by rw [decodeText_encodeText isText, ends])
  · intro fails
    refine (exchange_int _).bind_fails ?_
    rw [size_eq]
    exact (Exchange.send_receive _).bind_right_fails (by rw [decodeText_encodeText isText, fails])

/-- The key, and the object that the server has after it. -/
theorem exchange_key {client server : CryptoMethod} (beyond : ℕ → UInt8) :
    (∀ keyed, server.receiveKey (client.sentKey beyond) = some keyed → Exchange
      (do
        sendInt (UInt32.ofNat client.keySize)
        Process.send (client.sentKey beyond))
      (do
        let size ← receiveInt
        let key ← Process.receive size.toNat
        Process.ofOption (server.receiveKey key))
      () keyed) ∧
    (server.receiveKey (client.sentKey beyond) = none → Fails
      (do
        sendInt (UInt32.ofNat client.keySize)
        Process.send (client.sentKey beyond))
      (do
        let size ← receiveInt
        let key ← Process.receive size.toNat
        Process.ofOption (server.receiveKey key))) := by
  have size_eq : (UInt32.ofNat client.keySize).toNat = (client.sentKey beyond).length := by
    rw [UInt32.toNat_ofNat', length_sentKey, Nat.mod_eq_of_lt client.keySize_lt]
  constructor
  · intro keyed receives
    refine (exchange_int _).bind ?_
    rw [size_eq]
    exact (Exchange.send_receive _).bind_right (by rw [receives]; rfl)
  · intro fails
    refine (exchange_int _).bind_fails ?_
    rw [size_eq]
    exact (Exchange.send_receive _).bind_right_fails (by rw [fails]; rfl)

/-- The server writes an entry after the last dimension it has received. -/
theorem exchange_rcvPirParams {sent : RawPIRParameters} (d_le : sent.d.toNat ≤ maxRecLvl) :
    (sent.d.toNat < maxRecLvl → ∃ received, Exchange (PIRClientSimple.sendPirParams sent)
      PIRSession.rcvPirParams () received ∧ Received sent received) ∧
    (¬ sent.d.toNat < maxRecLvl →
      Fails (PIRClientSimple.sendPirParams sent) PIRSession.rcvPirParams) := by
  rcases exchange_pirParams d_le with ⟨received, exchange, arrived⟩
  constructor
  · intro inside
    refine ⟨_, exchange.bind_right ?_, arrived.setN 1⟩
    rw [arrived.d_eq]
    exact storeN_eq 1 inside
  · intro outside
    refine exchange.bind_right_fails ?_
    rw [arrived.d_eq]
    exact if_neg outside

theorem exchange_sendPirParams {sent : RawPIRParameters} (d_le : sent.d.toNat ≤ maxRecLvl) :
    (sent.d.toNat < maxRecLvl → ∃ received, Exchange PIRClientSimple.rcvPirParams
      (PIRSession.sendPirParams sent) received (sent.setN sent.d.toNat 1) ∧
      Received received (sent.setN sent.d.toNat 1)) ∧
    (¬ sent.d.toNat < maxRecLvl →
      Fails PIRClientSimple.rcvPirParams (PIRSession.sendPirParams sent)) := by
  rcases exchange_pirParams d_le with ⟨received, exchange, arrived⟩
  constructor
  · intro inside
    refine ⟨received, exchange.symm.bind_right (storeN_eq 1 inside), ?_⟩
    refine ⟨arrived.d_eq.symm, arrived.alpha_eq.symm, fun i i_lt => ?_⟩
    rw [arrived.d_eq] at i_lt
    rw [RawPIRParameters.setN_n, Function.update_of_ne (Nat.ne_of_lt i_lt)]
    exact (arrived.n_eq i i_lt).symm
  · intro outside
    exact exchange.symm.bind_right_fails (if_neg outside)

/-- The text and the key of the client. -/
theorem exchange_cryptoParams (keygen : Keygen) {crypto : CryptoMethod}
    (configured : crypto.Configured) (beyond : ℕ → UInt8) :
    (∃ keyed, Exchange (PIRClientSimple.sendCryptoParams true crypto beyond)
        (PIRSession.rcvCryptoParams keygen none) () keyed ∧ crypto.KeyFits ∧
      (keyed.getSerializedParams = crypto.getSerializedParams ↔ crypto.Described) ∧
      crypto.SameElements keyed) ∨
    Fails (PIRClientSimple.sendCryptoParams true crypto beyond)
        (PIRSession.rcvCryptoParams keygen none) ∧ ¬ (crypto.Described ∧ crypto.KeyFits) := by
  have length_lt : crypto.getSerializedParams.length < 2 ^ 32 :=
    crypto.length_getSerializedParams_le.trans_lt (by norm_num)
  have text := exchange_text crypto.getSerializedParams_isText length_lt
    fun text => Process.ofOption (getCryptoMethod keygen text)
  have described := getSerializedParams_getCryptoMethod_iff keygen configured
  cases reads : getCryptoMethod keygen crypto.getSerializedParams with
  | none =>
      rw [reads] at described
      exact Or.inr ⟨(text.2 (by rw [reads]; rfl)).bind, fun both => described both.1⟩
  | some server =>
      rw [reads] at described
      rcases described with ⟨shape, _, described_iff⟩
      have received := text.1 server (by rw [reads]; rfl)
      by_cases fits : crypto.KeyFits
      · rcases (receiveKey_sentKey shape beyond).1 fits with ⟨keyed, receives, same, sameElements⟩
        refine Or.inl ⟨keyed, received.bind ((exchange_key beyond).1 keyed receives), fits, ?_,
          sameElements⟩
        rw [same]
        exact described_iff
      · have fails := (receiveKey_sentKey shape beyond).2 fits
        exact Or.inr ⟨received.bind_fails ((exchange_key beyond).2 fails),
          fun both => fits both.2⟩

end Exchanges

/-! ## Whole sessions -/

theorem agree_of_received {elements : ℕ → ℕ → Element} {client server : CryptoMethod}
    {sent received : RawPIRParameters} {queries : Queries} (arrived : Received sent received)
    (stored : ∀ j < sent.d.toNat, ∀ i < (sent.n j).toNat,
      queries j i = some (client.queryCell (elementBytes client elements j i))) :
    Agree elements ⟨client, sent⟩ ⟨server, received, queries⟩ ↔
      server.getSerializedParams = client.getSerializedParams := by
  constructor
  · exact fun agree => agree.params_eq
  · exact fun same => ⟨arrived.d_eq, arrived.alpha_eq, arrived.n_eq, same, stored⟩

theorem clientDriven_settles_iff (keygen : Keygen) {crypto : CryptoMethod}
    (configured : crypto.Configured) {pirParams : RawPIRParameters}
    (d_le : pirParams.d.toNat ≤ maxRecLvl) (elements : ℕ → ℕ → Element) (beyond : ℕ → UInt8) :
    Settles (PIRClientSimple.clientDriven crypto pirParams elements beyond)
        (PIRSession.clientDriven keygen) (Agree elements) ↔
      pirParams.d.toNat < maxRecLvl ∧ crypto.KeyFits ∧ QueryFits crypto pirParams ∧
        crypto.Described := by
  rcases exchange_cryptoParams keygen configured beyond with
    ⟨keyed, exchangeCrypto, fits, described_iff, sameElements⟩ | ⟨fails, not_both⟩
  · by_cases inside : pirParams.d.toNat < maxRecLvl
    · rcases (exchange_rcvPirParams d_le).1 inside with ⟨received, exchangePir, arrived⟩
      by_cases queryFits : QueryFits crypto pirParams
      · rcases exchange_query elements configured sameElements arrived queryFits with
          ⟨queries, exchangeQuery, stored⟩
        have exchange : Exchange (PIRClientSimple.clientDriven crypto pirParams elements beyond)
            (PIRSession.clientDriven keygen) ⟨crypto, pirParams⟩ ⟨keyed, received, queries⟩ :=
          exchangeCrypto.bind (exchangePir.bind (exchangeQuery.bind .finished))
        rw [exchange.settles_iff, agree_of_received arrived stored, described_iff]
        exact ⟨fun described => ⟨inside, fits, queryFits, described⟩, fun holds => holds.2.2.2⟩
      · have failsQuery := fails_query elements configured sameElements arrived queryFits
        have fails : Fails (PIRClientSimple.clientDriven crypto pirParams elements beyond)
            (PIRSession.clientDriven keygen) :=
          exchangeCrypto.bind_fails (exchangePir.bind_fails failsQuery.bind)
        exact iff_of_false (fails.not_settles _) fun holds => queryFits holds.2.2.1
    · have fails : Fails (PIRClientSimple.clientDriven crypto pirParams elements beyond)
          (PIRSession.clientDriven keygen) :=
        exchangeCrypto.bind_fails ((exchange_rcvPirParams d_le).2 inside).bind
      exact iff_of_false (fails.not_settles _) fun holds => inside holds.1
  · have fails : Fails (PIRClientSimple.clientDriven crypto pirParams elements beyond)
        (PIRSession.clientDriven keygen) := fails.bind
    exact iff_of_false (fails.not_settles _) fun holds => not_both ⟨holds.2.2.2, holds.2.1⟩

/-- Two ends that set their parameters from one text have objects of one shape. -/
theorem sameShape_of_getCryptoMethod {keygen : Keygen} {text : List Char} {crypto : CryptoMethod}
    (sets : getCryptoMethod keygen text = some crypto) (other : Keygen) :
    ∃ client, getCryptoMethod other text = some client ∧ SameShape client crypto ∧
      client.getSerializedParams = crypto.getSerializedParams ∧
      (client.KeyFits ↔ crypto.KeyFits) := by
  simp only [getCryptoMethod] at sets ⊢
  split at sets
  next name =>
    rcases Option.map_eq_some_iff.mp sets with ⟨params, params_eq, rfl⟩
    rw [if_pos name]
    rw [PaillierParameters.setNewParameters.eq_def] at params_eq
    split at params_eq
    next name' security keySize rest fields =>
      rcases Option.map_eq_some_iff.mp params_eq with ⟨primes, _, rfl⟩
      rcases Option.isSome_iff_exists.mp (other.draw_isSome _ ⟨primes⟩) with ⟨drawn, draws⟩
      rw [fields, PaillierParameters.setNewParameters, draws]
      exact ⟨_, rfl, .Paillier rfl rfl rfl, rfl, Iff.rfl⟩
    next => exact absurd params_eq (by simp)
  next name =>
    rw [if_neg name]
    split at sets
    next name' =>
      rcases Option.map_eq_some_iff.mp sets with ⟨params, params_eq, rfl⟩
      rw [if_pos name', params_eq]
      exact ⟨_, rfl, .LWE rfl rfl, rfl, Iff.rfl⟩
    next name' =>
      rw [if_neg name']
      split at sets
      next name'' =>
        rcases Option.map_eq_some_iff.mp sets with ⟨params, params_eq, rfl⟩
        rw [if_pos name'', params_eq]
        exact ⟨_, rfl, .FV rfl, rfl, Iff.rfl⟩
      next => exact absurd sets (by simp)

theorem Received.queryFits_iff {sent received : RawPIRParameters} {client crypto : CryptoMethod}
    (arrived : Received sent received) (shape : SameShape client crypto) :
    QueryFits client sent ↔ QueryFits crypto received := by
  rw [QueryFits, QueryFits, arrived.d_eq]
  refine forall₂_congr fun j j_lt => ?_
  rw [arrived.n_eq j j_lt, DimensionFits, DimensionFits, shape.elementsFit_iff]

theorem QueryFits_setN (crypto : CryptoMethod) (pirParams : RawPIRParameters) (size : UInt32) :
    QueryFits crypto (pirParams.setN pirParams.d.toNat size) ↔ QueryFits crypto pirParams := by
  rw [QueryFits, QueryFits, RawPIRParameters.setN_d]
  refine forall₂_congr fun j j_lt => ?_
  rw [RawPIRParameters.setN_n, Function.update_of_ne (Nat.ne_of_lt j_lt)]

theorem serverDriven_settles_iff {keygen : Keygen} (clientKeygen : Keygen) {text : List Char}
    {crypto : CryptoMethod} (sets : getCryptoMethod keygen text = some crypto)
    (isText : IsText text) (length_lt : text.length < 2 ^ 31) {pirParams : RawPIRParameters}
    (d_le : pirParams.d.toNat ≤ maxRecLvl) (elements : ℕ → ℕ → Element) (beyond : ℕ → UInt8) :
    Settles (PIRClientSimple.serverDriven clientKeygen elements beyond)
        (PIRSession.serverDriven keygen crypto pirParams text) (Agree elements) ↔
      pirParams.d.toNat < maxRecLvl ∧ crypto.KeyFits ∧ QueryFits crypto pirParams := by
  rcases sameShape_of_getCryptoMethod sets clientKeygen with
    ⟨client, reads, shape, same, fits_iff⟩
  have configured := configured_of_getCryptoMethod reads
  have size_eq : (UInt32.ofNat text.length).toNat = (encodeText text).length := by
    rw [UInt32.toNat_ofNat', encodeText, List.length_map]
    omega
  have exchangeText : Exchange PIRClientSimple.rcvCryptoParams (PIRSession.sendCryptoParams text)
      text () := by
    refine (exchange_int _).symm.bind ?_
    rw [size_eq, if_neg (by rw [encodeText, List.length_map]; omega)]
    have ends : pure (decodeText (encodeText text)) = Process.finished text := by
      rw [decodeText_encodeText isText]
      rfl
    exact ((Exchange.send_receive (encodeText text)).bind_right ends).symm
  have configures : Process.ofOption (getCryptoMethod clientKeygen text) = .finished client := by
    rw [reads]
    rfl
  by_cases fits : crypto.KeyFits
  · rcases (receiveKey_sentKey shape beyond).1 (fits_iff.mpr fits) with
      ⟨keyed, receives, same_keyed, sameElements⟩
    have exchangeKey := (exchange_key beyond).1 keyed receives
    by_cases inside : pirParams.d.toNat < maxRecLvl
    · rcases (exchange_sendPirParams d_le).1 inside with ⟨received, exchangePir, arrived⟩
      have queryFits_iff : QueryFits client received ↔ QueryFits crypto pirParams :=
        (arrived.queryFits_iff shape).trans (QueryFits_setN crypto pirParams 1)
      by_cases queryFits : QueryFits crypto pirParams
      · rcases exchange_query elements configured sameElements arrived
          (queryFits_iff.mpr queryFits) with ⟨queries, exchangeQuery, stored⟩
        have exchange : Exchange (PIRClientSimple.serverDriven clientKeygen elements beyond)
            (PIRSession.serverDriven keygen crypto pirParams text) ⟨client, received⟩
            ⟨keyed, pirParams.setN pirParams.d.toNat 1, queries⟩ := by
          refine exchangeText.bind ?_
          rw [configures]
          exact exchangeKey.bind (exchangePir.bind (exchangeQuery.bind .finished))
        rw [exchange.settles_iff, agree_of_received arrived stored, same_keyed]
        exact ⟨fun _ => ⟨inside, fits, queryFits⟩, fun _ => same.symm⟩
      · have failsQuery := fails_query elements configured sameElements arrived
          fun client_fits => queryFits (queryFits_iff.mp client_fits)
        have fails : Fails (PIRClientSimple.serverDriven clientKeygen elements beyond)
            (PIRSession.serverDriven keygen crypto pirParams text) := by
          refine exchangeText.bind_fails ?_
          rw [configures]
          exact exchangeKey.bind_fails (exchangePir.bind_fails failsQuery.bind)
        exact iff_of_false (fails.not_settles _) fun holds => queryFits holds.2.2
    · have fails : Fails (PIRClientSimple.serverDriven clientKeygen elements beyond)
          (PIRSession.serverDriven keygen crypto pirParams text) := by
        refine exchangeText.bind_fails ?_
        rw [configures]
        exact exchangeKey.bind_fails ((exchange_sendPirParams d_le).2 inside).bind
      exact iff_of_false (fails.not_settles _) fun holds => inside holds.1
  · have fails : Fails (PIRClientSimple.serverDriven clientKeygen elements beyond)
        (PIRSession.serverDriven keygen crypto pirParams text) := by
      refine exchangeText.bind_fails ?_
      rw [configures]
      exact ((exchange_key beyond).2 ((receiveKey_sentKey shape beyond).2
        (fun client_fits => fits (fits_iff.mp client_fits)))).bind
    exact iff_of_false (fails.not_settles _) fun holds => fits holds.2.1

/-- The two ways in which a session is driven. -/
inductive ExchangeMethod
  | clientDriven
  | serverDriven
  deriving DecidableEq

/-- What the end that drives a session has decided, and where both ends take their keys from. -/
structure Setup where
  text : List Char
  isText : IsText text
  length_lt : text.length < 2 ^ 31
  driver : Keygen
  other : Keygen
  cryptoMethod : CryptoMethod
  sets : getCryptoMethod driver text = some cryptoMethod
  pirParams : RawPIRParameters
  d_pos : 1 ≤ pirParams.d.toNat
  d_le : pirParams.d.toNat ≤ maxRecLvl
  elements : ℕ → ℕ → Element
  beyond : ℕ → UInt8

namespace Setup

variable (setup : Setup)

def client : ExchangeMethod → Process ClientEnd
  | .clientDriven =>
      PIRClientSimple.clientDriven setup.cryptoMethod setup.pirParams setup.elements setup.beyond
  | .serverDriven => PIRClientSimple.serverDriven setup.other setup.elements setup.beyond

def server : ExchangeMethod → Process ServerEnd
  | .clientDriven => PIRSession.clientDriven setup.other
  | .serverDriven =>
      PIRSession.serverDriven setup.driver setup.cryptoMethod setup.pirParams setup.text

/-- In any order of steps, the two ends read what the other has written and agree. -/
def Agrees (method : ExchangeMethod) : Prop :=
  Settles (setup.client method) (setup.server method) (Agree setup.elements)

end Setup

/-- A search for keys that gives up if there are none. -/
noncomputable def someKeys : Keygen := by
  classical
  exact
    { draw := fun modulusbits =>
        if found : Nonempty (KeyPrimes modulusbits) then some found.some else none
      draw_isSome := fun modulusbits found => by rw [dif_pos found]; rfl }

/-- The text of an FV object with an absorption of five bits for each coefficient. -/
def fvText : List Char := "FV:80:2048:124:30:5".toList

theorem getCryptoMethod_fvText (keygen : Keygen) :
    getCryptoMethod keygen fvText = some (FV ⟨80, .FV2048_124, 5, by decide⟩) := by
  rfl

/-- A client that has chosen FV, for a query of two elements. -/
noncomputable def fvSetup : Setup where
  text := fvText
  isText c mem := of_decide_eq_true (List.all_eq_true.mp
    (by decide : fvText.all (fun c => decide (0 < c.toNat ∧ c.toNat < 256)) = true) c mem)
  length_lt := by decide
  driver := someKeys
  other := someKeys
  cryptoMethod := FV ⟨80, .FV2048_124, 5, by decide⟩
  sets := getCryptoMethod_fvText someKeys
  pirParams := ({ RawPIRParameters.initial with d := 1, alpha := 1 }).setN 0 2
  d_pos := by decide
  d_le := by decide
  elements := fun _ _ _ => 0
  beyond := fun _ => 0

end QuerySession

end Xpir
