import Eecs482.FileServerParser
import Eecs482.FileServerAnswers

/-!
# Receiving a request

`handle_requests` receives the header byte by byte, and `handle_writeblock` the
block behind it.  Both loops append what a call of `recv` left in the buffer
before they look at its result: the result -1 is then a huge length, and the
append throws.
-/

namespace Eecs482
namespace FileServer

/-- What a call of `recv` returns: data, 0 at the end of the stream, or -1. -/
inductive RecvResult (α : Type)
  | got (data : α)
  | ended
  | failed

/-- The bytes that have arrived by a call of `recv`, at least one. -/
abbrev Chunk := { bytes : List Byte // bytes ≠ [] }

/-- How a thread gets on with what it receives: it has a value, an exception
has ended it, or it still waits for `recv` to return. -/
inductive Received (α : Type)
  | value (result : α)
  | thrown
  | waiting

namespace Received

variable {α β : Type}

def bind : Received α → (α → Received β) → Received β
  | .value result, f => f result
  | .thrown, _ => .thrown
  | .waiting, _ => .waiting

def map (f : α → β) (received : Received α) : Received β :=
  received.bind fun result => .value (f result)

end Received

/-- The results are some data and then nothing more, or what follows it. -/
theorem RecvResult.exists_got {α : Type} (results : List (RecvResult α)) :
    ∃ data : List α, results = data.map .got ∨
      (∃ rest, results = data.map .got ++ .ended :: rest) ∨
      ∃ rest, results = data.map .got ++ .failed :: rest := by
  induction results with
  | nil => exact ⟨[], .inl rfl⟩
  | cons result rest ih =>
      cases result with
      | got c =>
          obtain ⟨data, rfl | ⟨tail, rfl⟩ | ⟨tail, rfl⟩⟩ := ih
          · exact ⟨c :: data, .inl rfl⟩
          · exact ⟨c :: data, .inr (.inl ⟨tail, rfl⟩)⟩
          · exact ⟨c :: data, .inr (.inr ⟨tail, rfl⟩)⟩
      | ended => exact ⟨[], .inr (.inl ⟨rest, rfl⟩)⟩
      | failed => exact ⟨[], .inr (.inr ⟨rest, rfl⟩)⟩

/-! ## The header -/

namespace Header

theorem noNul_nil : (0 : Byte) ∉ ([] : List Byte) := List.not_mem_nil

theorem length_nil_le : ([] : List Byte).length ≤ maxHeaderLen := Nat.zero_le _

def empty : Header where
  bytes := []
  noNul := noNul_nil
  length_le := length_nil_le

def append
    (header : Header) (bytes : List Byte) (hnul : (0 : Byte) ∉ bytes)
    (hlength : header.bytes.length + bytes.length ≤ maxHeaderLen) : Header where
  bytes := header.bytes ++ bytes
  noNul := by simp [header.noNul, hnul]
  length_le := by rwa [List.length_append]

end Header

/-- The receiving loop of `handle_requests`.  `buf` is the byte in the buffer
before the call, which is uninitialized at first; `none` closes the
connection. -/
def receiveHeader (buf : Byte) (reqHeader : Header) :
    List (RecvResult Byte) → Received (Option Header)
  | [] => .waiting
  | .got c :: rest =>
      if hc : c = 0 then .value (some reqHeader)
      else if hlength : reqHeader.bytes.length + 1 > maxHeaderLen then .value none
      else
        receiveHeader c
          (reqHeader.append [c] (by simpa using Ne.symm hc)
            (by simpa using Nat.le_of_not_lt hlength)) rest
  | .ended :: _ => if buf = 0 then .value (some reqHeader) else .value none
  | .failed :: _ => if buf = 0 then .value (some reqHeader) else .thrown

theorem Header.append_append
    {header : Header} {c : Byte} {bytes : List Byte} (hc hlength hnul hlength')
    (hnul' : (0 : Byte) ∉ c :: bytes)
    (hlength'' : header.bytes.length + (c :: bytes).length ≤ maxHeaderLen) :
    (header.append [c] hc hlength).append bytes hnul hlength' =
      header.append (c :: bytes) hnul' hlength'' := by
  simp [Header.append]

/-- Bytes other than NUL are appended as long as the header is not too long. -/
theorem receiveHeader_append
    {header : Header} {bytes : List Byte} (buf : Byte) (hnul : (0 : Byte) ∉ bytes)
    (hlength : header.bytes.length + bytes.length ≤ maxHeaderLen)
    (rest : List (RecvResult Byte)) :
    receiveHeader buf header (bytes.map .got ++ rest) =
      receiveHeader (bytes.getLastD buf) (header.append bytes hnul hlength) rest := by
  induction bytes generalizing buf header with
  | nil =>
      simp [Header.append]
  | cons c bytes ih =>
      have hc : c ≠ 0 := fun hzero => hnul (by simp [hzero])
      have hbytes : (0 : Byte) ∉ bytes := fun hmem =>
        hnul (List.mem_cons_of_mem c hmem)
      have hfits : ¬header.bytes.length + 1 > maxHeaderLen := by
        rw [List.length_cons] at hlength
        omega
      rw [List.map_cons, List.cons_append, receiveHeader, dif_neg hc, dif_neg hfits,
        ih c hbytes (by simpa [Header.append, Nat.add_assoc, Nat.add_comm 1] using hlength),
        Header.append_append]
      rw [List.getLastD_cons]

/-- The header with the characters `bytes` followed by a NUL is what arrives. -/
def HeaderArrives (header : Header) (results : List (RecvResult Byte)) : Prop :=
  ∃ rest, results = header.bytes.map .got ++ .got 0 :: rest

/-- `recv` fails before a NUL or too many characters have arrived. -/
def FailsInHeader (results : List (RecvResult Byte)) : Prop :=
  ∃ (header : Header) (rest : List (RecvResult Byte)),
    results = header.bytes.map .got ++ .failed :: rest

variable {buf : Byte} {header : Header} {results : List (RecvResult Byte)}
variable {dataResults : List (RecvResult Chunk)}

theorem receiveHeader_bytes
    (buf : Byte) (header : Header) (rest : List (RecvResult Byte)) :
    receiveHeader buf .empty (header.bytes.map .got ++ rest) =
      receiveHeader (header.bytes.getLastD buf) header rest := by
  have hlength : Header.empty.bytes.length + header.bytes.length ≤ maxHeaderLen := by
    simpa [Header.empty] using header.length_le
  have happend : Header.empty.append header.bytes header.noNul hlength = header := by
    simp [Header.append, Header.empty]
  rw [receiveHeader_append buf header.noNul hlength, happend]

theorem receiveHeader_arrives (buf : Byte) (harrives : HeaderArrives header results) :
    receiveHeader buf .empty results = .value (some header) := by
  obtain ⟨rest, rfl⟩ := harrives
  rw [receiveHeader_bytes, receiveHeader, dif_pos rfl]

theorem receiveHeader_waits (buf : Byte) (header : Header) :
    receiveHeader buf .empty (header.bytes.map .got) = .waiting := by
  have hbytes := receiveHeader_bytes buf header []
  rw [List.append_nil] at hbytes
  rw [hbytes, receiveHeader]

theorem receiveHeader_long
    {c : Byte} (buf : Byte) (header : Header) (hc : c ≠ 0)
    (hlength : header.bytes.length = maxHeaderLen) (rest : List (RecvResult Byte)) :
    receiveHeader buf .empty (header.bytes.map .got ++ .got c :: rest) =
      .value none := by
  rw [receiveHeader_bytes, receiveHeader, dif_neg hc, dif_pos (by omega)]

/-- The byte in the buffer is NUL only if it has been there from the start. -/
theorem getLastD_eq_zero_iff :
    header.bytes.getLastD buf = 0 ↔ header = .empty ∧ buf = 0 := by
  obtain ⟨bytes, hnul, hlength⟩ := header
  rcases List.eq_nil_or_concat bytes with rfl | ⟨front, c, rfl⟩
  · simp [Header.empty]
  · have hc : c ≠ 0 := by
      rintro rfl
      exact hnul (by simp)
    simp [Header.empty, hc]

/-- What may become of a header. -/
inductive HeaderCase : List (RecvResult Byte) → Prop
  | arrives (header : Header) (rest : List (RecvResult Byte)) :
      HeaderCase (header.bytes.map .got ++ .got 0 :: rest)
  | ended (header : Header) (rest : List (RecvResult Byte)) :
      HeaderCase (header.bytes.map .got ++ .ended :: rest)
  | failed (header : Header) (rest : List (RecvResult Byte)) :
      HeaderCase (header.bytes.map .got ++ .failed :: rest)
  | long (header : Header) (c : Byte) (rest : List (RecvResult Byte)) (hc : c ≠ 0)
      (hlength : header.bytes.length = maxHeaderLen) :
      HeaderCase (header.bytes.map .got ++ .got c :: rest)
  | waits (header : Header) : HeaderCase (header.bytes.map .got)

/-- What has arrived so far is `header`. -/
theorem headerCase_append (header : Header) (results : List (RecvResult Byte)) :
    HeaderCase (header.bytes.map .got ++ results) := by
  induction results generalizing header with
  | nil =>
      rw [List.append_nil]
      exact .waits header
  | cons result rest ih =>
      cases result with
      | ended => exact .ended header rest
      | failed => exact .failed header rest
      | got c =>
          by_cases hc : c = 0
          · subst hc
            exact .arrives header rest
          · by_cases hlength : header.bytes.length = maxHeaderLen
            · exact .long header c rest hc hlength
            · have hfits : header.bytes.length + [c].length ≤ maxHeaderLen := by
                have hle := header.length_le
                rw [List.length_singleton]
                omega
              have hcase := ih (header.append [c] (by simpa using Ne.symm hc) hfits)
              simpa [Header.append] using hcase

theorem headerCase (results : List (RecvResult Byte)) : HeaderCase results :=
  headerCase_append .empty results

/-! ## The data of a write -/

/-- The bytes of the chunks, in order. -/
def joinChunks (chunks : List Chunk) : List Byte :=
  chunks.flatMap Subtype.val

/-- The receiving loop of `handle_writeblock`: the bytes it takes from the
connection, and how it ends.  A call asks for the bytes that are missing. -/
def receiveData (data : List Byte) :
    List (RecvResult Chunk) → List Byte × Received Unit
  | [] => (data, .waiting)
  | .got chunk :: rest =>
      let data := data ++ chunk.val.take (fsBlockSize - data.length)
      if data.length ≥ fsBlockSize then (data, .value ()) else receiveData data rest
  | .ended :: _ => (data, .value ())
  | .failed :: _ => (data, .thrown)

/-- The 512 bytes at `data.c_str()`: the data, a NUL, and what the memory behind
them holds. -/
def blockAt (data : List Byte) (beyond : Block) : Block := fun i =>
  (data ++ [0])[i.val]?.getD (beyond i)

/-- `handle_writeblock` on a connection: what is left to do once the data has
been received. -/
def handleWriteblockFrom
    (req : List Byte) (fields : RequestFields) (beyond : Block)
    (results : List (RecvResult Chunk)) : Received (FsProg Unit) :=
  match blockIndex req with
  | none => .value (return)
  | some _ =>
      let (data, exit) := receiveData [] results
      exit.map fun _ => handleWriteblock req fields (blockAt data beyond)

/-- The thread of a connection: `results` is what `recv` returns for the header,
`dataResults` what it returns for the data of a write. -/
def handleRequestsFrom
    (stack : Stack) (beyond : Block) (buf : Byte)
    (results : List (RecvResult Byte)) (dataResults : List (RecvResult Chunk)) :
    Received (FsProg Unit) :=
  (receiveHeader buf .empty results).bind fun
    | none => .value (call .close)
    | some header =>
        match selectRequest header beyond with
        | none => .value (call .close)
        | some (.writeblock req fields _) =>
            (handleWriteblockFrom req fields beyond dataResults).map
              fun handler => handler >>= fun _ => call .close
        | some request => .value (serve stack request)

theorem joinChunks_cons (chunk : Chunk) (chunks : List Chunk) :
    joinChunks (chunk :: chunks) = chunk.val ++ joinChunks chunks := rfl

/-- Once 512 bytes have arrived, the loop ends with the first of them. -/
theorem receiveData_full
    {data : List Byte} {chunks : List Chunk} (hdata : data.length < fsBlockSize)
    (hfull : fsBlockSize ≤ data.length + (joinChunks chunks).length)
    (rest : List (RecvResult Chunk)) :
    receiveData data (chunks.map .got ++ rest) =
      ((data ++ joinChunks chunks).take fsBlockSize, .value ()) := by
  induction chunks generalizing data with
  | nil =>
      simp only [joinChunks, List.flatMap_nil, List.length_nil] at hfull
      omega
  | cons chunk chunks ih =>
      rw [joinChunks_cons, List.length_append] at hfull
      rw [List.map_cons, List.cons_append, receiveData, joinChunks_cons]
      split
      case isTrue hlength =>
          rw [List.length_append, List.length_take] at hlength
          rw [List.take_append, List.take_of_length_le hdata.le,
            List.take_append_of_le_length (by omega)]
      case isFalse hlength =>
          rw [List.length_append, List.length_take] at hlength
          have htake : chunk.val.take (fsBlockSize - data.length) = chunk.val :=
            List.take_of_length_le (by omega)
          rw [htake, ih (by rw [List.length_append]; omega)
            (by rw [List.length_append]; omega), List.append_assoc]

/-- Fewer bytes are all appended. -/
theorem receiveData_short
    {data : List Byte} {chunks : List Chunk}
    (hshort : data.length + (joinChunks chunks).length < fsBlockSize)
    (rest : List (RecvResult Chunk)) :
    receiveData data (chunks.map .got ++ rest) =
      receiveData (data ++ joinChunks chunks) rest := by
  induction chunks generalizing data with
  | nil => simp [joinChunks]
  | cons chunk chunks ih =>
      rw [joinChunks_cons, List.length_append] at hshort
      have htake : chunk.val.take (fsBlockSize - data.length) = chunk.val :=
        List.take_of_length_le (by omega)
      have hlength : ¬(data ++ chunk.val).length ≥ fsBlockSize := by
        rw [List.length_append]
        omega
      rw [List.map_cons, List.cons_append, receiveData, htake]
      rw [if_neg hlength, ih (by rw [List.length_append]; omega), List.append_assoc,
        joinChunks_cons]

/-! ## Reception of the header is total -/

/-- What the receiving loop of `handle_requests` should do. -/
structure HeaderTotal (buf : Byte) (results : List (RecvResult Byte)) : Prop where
  /-- It waits for more only while a header may still be arriving. -/
  ends : receiveHeader buf .empty results = .waiting →
    ∃ header : Header, results = header.bytes.map .got
  parses : ∀ header, receiveHeader buf .empty results = .value (some header) ↔
    HeaderArrives header results
  /-- Any other connection is closed, and nothing else is done. -/
  closes : receiveHeader buf .empty results ≠ .waiting →
    (∀ header, ¬HeaderArrives header results) → ∀ stack beyond dataResults,
      handleRequestsFrom stack beyond buf results dataResults = .value (call .close)

theorem handleRequestsFrom_of_none
    (hnone : receiveHeader buf .empty results = .value none) (stack : Stack)
    (beyond : Block) (dataResults : List (RecvResult Chunk)) :
    handleRequestsFrom stack beyond buf results dataResults =
      .value (call .close) := by
  unfold handleRequestsFrom
  rw [hnone]
  rfl

/-- Different results of the loop come from different connections. -/
theorem not_arrives_of_ne
    (hne : ∀ header, receiveHeader 1 .empty results ≠ .value (some header)) :
    ∀ header, ¬HeaderArrives header results := by
  intro header harrives
  exact hne header (receiveHeader_arrives 1 harrives)

theorem receiveHeader_stale_of_ne
    (hbuf : buf ≠ 0) (header : Header) : header.bytes.getLastD buf ≠ 0 := by
  intro hzero
  exact hbuf (getLastD_eq_zero_iff.mp hzero).2

theorem receiveHeader_ended
    (hbuf : header.bytes.getLastD buf ≠ 0) (rest : List (RecvResult Byte)) :
    receiveHeader buf .empty (header.bytes.map .got ++ .ended :: rest) =
      .value none := by
  rw [receiveHeader_bytes, receiveHeader, if_neg hbuf]

theorem receiveHeader_failed
    (hbuf : header.bytes.getLastD buf ≠ 0) (rest : List (RecvResult Byte)) :
    receiveHeader buf .empty (header.bytes.map .got ++ .failed :: rest) =
      .thrown := by
  rw [receiveHeader_bytes, receiveHeader, if_neg hbuf]

theorem not_arrives_ended (header : Header) (rest : List (RecvResult Byte)) :
    ∀ header', ¬HeaderArrives header' (header.bytes.map .got ++ .ended :: rest) := by
  apply not_arrives_of_ne
  intro header' hvalue
  rw [receiveHeader_ended (receiveHeader_stale_of_ne (by decide) header)] at hvalue
  cases hvalue

theorem not_arrives_failed (header : Header) (rest : List (RecvResult Byte)) :
    ∀ header', ¬HeaderArrives header' (header.bytes.map .got ++ .failed :: rest) := by
  apply not_arrives_of_ne
  intro header' hvalue
  rw [receiveHeader_failed (receiveHeader_stale_of_ne (by decide) header)] at hvalue
  cases hvalue

/-- Where the first result is 0 and the buffer happens to hold a NUL, an empty
header is parsed. -/
theorem HeaderTotal.not_stale
    (htotal : HeaderTotal buf results) :
    ¬(buf = 0 ∧ ∃ rest, results = .ended :: rest) := by
  rintro ⟨rfl, rest, rfl⟩
  have hvalue : receiveHeader 0 .empty (.ended :: rest) = .value (some .empty) := by
    rw [receiveHeader, if_pos rfl]
  exact not_arrives_ended .empty rest .empty ((htotal.parses .empty).mp hvalue)

theorem HeaderTotal.not_fails (htotal : HeaderTotal buf results) :
    ¬FailsInHeader results := by
  rintro ⟨header, rest, rfl⟩
  have hnone := not_arrives_failed header rest
  by_cases hbuf : header.bytes.getLastD buf = 0
  · have hvalue : receiveHeader buf .empty (header.bytes.map .got ++ .failed :: rest) =
        .value (some header) := by
      rw [receiveHeader_bytes, receiveHeader, if_pos hbuf]
    exact hnone header ((htotal.parses header).mp hvalue)
  · have hthrown := receiveHeader_failed hbuf rest
    have hclosed := htotal.closes (by rw [hthrown]; exact nofun) hnone
      ⟨fun _ => ⟨fun _ => 0, 0⟩, asInode fun _ => 0⟩ (fun _ => 0) []
    unfold handleRequestsFrom at hclosed
    rw [hthrown] at hclosed
    cases hclosed

theorem HeaderTotal.of_value
    {result : Option Header}
    (hvalue : receiveHeader buf .empty results = .value result)
    (hparses : ∀ header, result = some header ↔ HeaderArrives header results) :
    HeaderTotal buf results where
  ends hwaiting := by
    rw [hvalue] at hwaiting
    cases hwaiting
  parses header := by
    rw [hvalue, ← hparses, Received.value.injEq]
  closes _ hnone := by
    cases result with
    | none => exact handleRequestsFrom_of_none hvalue
    | some header => exact absurd ((hparses header).mp rfl) (hnone header)

/-- The header is received as it should unless `recv` fails, or returns 0 at
once while the uninitialized buffer holds a NUL. -/
theorem headerTotal_iff (buf : Byte) (results : List (RecvResult Byte)) :
    HeaderTotal buf results ↔
      ¬FailsInHeader results ∧ ¬(buf = 0 ∧ ∃ rest, results = .ended :: rest) := by
  constructor
  · intro htotal
    exact ⟨htotal.not_fails, htotal.not_stale⟩
  · rintro ⟨hfails, hstale⟩
    cases headerCase results with
    | arrives header rest =>
        have harrives : HeaderArrives header (header.bytes.map .got ++ .got 0 :: rest) :=
          ⟨rest, rfl⟩
        have hvalue := receiveHeader_arrives buf harrives
        refine .of_value hvalue fun header' => ⟨?_, fun harrives => ?_⟩
        · rintro ⟨rfl⟩
          exact ⟨rest, rfl⟩
        · rw [receiveHeader_arrives buf harrives, Received.value.injEq] at hvalue
          exact hvalue.symm
    | ended header rest =>
        have hbuf : header.bytes.getLastD buf ≠ 0 := by
          intro hzero
          obtain ⟨rfl, rfl⟩ := getLastD_eq_zero_iff.mp hzero
          exact hstale ⟨rfl, rest, rfl⟩
        refine .of_value (receiveHeader_ended hbuf rest) fun header' => ?_
        exact ⟨nofun, fun harrives => absurd harrives (not_arrives_ended header rest _)⟩
    | failed header rest => exact absurd ⟨header, rest, rfl⟩ hfails
    | long header c rest hc hlength =>
        have hnone := not_arrives_of_ne fun header' hvalue => by
          rw [receiveHeader_long 1 header hc hlength rest] at hvalue
          cases hvalue
        refine .of_value (receiveHeader_long buf header hc hlength rest) fun header' => ?_
        exact ⟨nofun, fun harrives => absurd harrives (hnone header')⟩
    | waits header =>
        have hwaiting := receiveHeader_waits buf header
        exact
          { ends := fun _ => ⟨header, rfl⟩
            parses := fun header' => by
              constructor
              · intro hvalue
                rw [hwaiting] at hvalue
                cases hvalue
              · exact receiveHeader_arrives buf
            closes := fun hne => absurd hwaiting hne }

/-- The client sends one character and resets the connection. -/
theorem not_headerTotal :
    handleRequestsFrom ⟨fun _ => ⟨fun _ => 0, 0⟩, asInode fun _ => 0⟩ (fun _ => 0) 1
      [.got 70, .failed] [] = .thrown ∧
    ¬HeaderTotal 1 [.got 70, .failed] := by
  refine ⟨rfl, fun htotal => htotal.not_fails ⟨?_, [], ?_⟩⟩
  · exact ⟨[70], by decide, by decide⟩
  · rfl

/-! ## Only complete data is written -/

/-- The bytes a client sends before its connection ends or fails. -/
def sentData : List (RecvResult Chunk) → List Byte
  | [] | .ended :: _ | .failed :: _ => []
  | .got chunk :: rest => chunk.val ++ sentData rest

/-- The call writes the first 512 of `bytes`. -/
def FsCall.Stores (bytes : List Byte) (op : FsCall) : Prop :=
  ∃ b block commit, op = .diskWriteblock b block commit ∧
    List.ofFn block = bytes.take fsBlockSize

/-- What receiving and writing a block should do. -/
structure CommitsComplete
    (req : List Byte) (fields : RequestFields) (beyond : Block)
    (results : List (RecvResult Chunk)) : Prop where
  /-- The loop waits for more only while bytes are missing. -/
  ends : handleWriteblockFrom req fields beyond results = .waiting →
    ∃ chunks : List Chunk, results = chunks.map .got ∧
      (joinChunks chunks).length < fsBlockSize
  catches : handleWriteblockFrom req fields beyond results ≠ .thrown
  consumed : (receiveData [] results).1.length ≤ fsBlockSize
  /-- Whatever the disk holds and other handlers do, the first write is that of
  a whole block, and the block is what the client has sent. -/
  complete : ∀ handler,
    handleWriteblockFrom req fields beyond results = .value handler →
    handler.Leads FsCall.Writes (FsCall.Stores (sentData results))

theorem sentData_append (chunks : List Chunk) (rest : List (RecvResult Chunk)) :
    sentData (chunks.map .got ++ rest) = joinChunks chunks ++ sentData rest := by
  induction chunks with
  | nil => rfl
  | cons chunk chunks ih =>
      rw [List.map_cons, List.cons_append, sentData, ih, joinChunks_cons,
        List.append_assoc]

/-- `recv` reports `stop` before 512 bytes have arrived. -/
def StopsShort (stop : RecvResult Chunk) (results : List (RecvResult Chunk)) : Prop :=
  ∃ (chunks : List Chunk) (rest : List (RecvResult Chunk)),
    results = chunks.map .got ++ stop :: rest ∧
    (joinChunks chunks).length < fsBlockSize

theorem receiveData_stops
    (chunks : List Chunk) (hshort : (joinChunks chunks).length < fsBlockSize)
    (rest : List (RecvResult Chunk)) :
    receiveData [] (chunks.map .got ++ rest) = receiveData (joinChunks chunks) rest := by
  rw [receiveData_short (by simpa using hshort), List.nil_append]

theorem StopsShort.ended (hshort : StopsShort .ended dataResults) :
    receiveData [] dataResults = (sentData dataResults, .value ()) ∧
      (sentData dataResults).length < fsBlockSize := by
  obtain ⟨chunks, rest, rfl, hlength⟩ := hshort
  rw [receiveData_stops chunks hlength, sentData_append, sentData, List.append_nil]
  exact ⟨rfl, hlength⟩

theorem StopsShort.failed (hshort : StopsShort .failed dataResults) :
    receiveData [] dataResults = (sentData dataResults, .thrown) ∧
      (sentData dataResults).length < fsBlockSize := by
  obtain ⟨chunks, rest, rfl, hlength⟩ := hshort
  rw [receiveData_stops chunks hlength, sentData_append, sentData, List.append_nil]
  exact ⟨rfl, hlength⟩

/-- What may become of the data of a write. -/
inductive DataCase (results : List (RecvResult Chunk)) : Prop
  | full (data : List Byte) (hreceive : receiveData [] results = (data, .value ()))
      (hdata : data = (sentData results).take fsBlockSize)
      (hlength : data.length = fsBlockSize)
  | ended (hshort : StopsShort .ended results)
  | failed (hshort : StopsShort .failed results)
  | waits (chunks : List Chunk) (hresults : results = chunks.map .got)
      (hlength : (joinChunks chunks).length < fsBlockSize)
      (hreceive : receiveData [] results = (joinChunks chunks, .waiting))

theorem dataCase_of_full
    (chunks : List Chunk) (hfull : fsBlockSize ≤ (joinChunks chunks).length)
    (rest : List (RecvResult Chunk)) : DataCase (chunks.map .got ++ rest) := by
  refine .full ((joinChunks chunks).take fsBlockSize) ?_ ?_ ?_
  · rw [receiveData_full (by decide) (by simpa using hfull), List.nil_append]
  · rw [sentData_append, List.take_append_of_le_length hfull]
  · rw [List.length_take, Nat.min_eq_left hfull]

theorem dataCase (results : List (RecvResult Chunk)) : DataCase results := by
  obtain ⟨chunks, hresults⟩ := RecvResult.exists_got results
  by_cases hlength : (joinChunks chunks).length < fsBlockSize
  · rcases hresults with rfl | ⟨rest, rfl⟩ | ⟨rest, rfl⟩
    · refine .waits chunks rfl hlength ?_
      have hstops := receiveData_stops chunks hlength []
      rwa [List.append_nil] at hstops
    · exact .ended ⟨chunks, rest, rfl, hlength⟩
    · exact .failed ⟨chunks, rest, rfl, hlength⟩
  · have hfull := dataCase_of_full chunks (Nat.le_of_not_lt hlength)
    rcases hresults with rfl | ⟨rest, rfl⟩ | ⟨rest, rfl⟩
    · simpa using hfull []
    · exact hfull _
    · exact hfull _

/-- The loop takes no more than a block from the connection. -/
theorem length_receiveData_le (results : List (RecvResult Chunk)) :
    (receiveData [] results).1.length ≤ fsBlockSize := by
  cases dataCase results with
  | full data hreceive hdata hlength =>
      rw [hreceive]
      exact hlength.le
  | ended hshort =>
      rw [hshort.ended.1]
      exact hshort.ended.2.le
  | failed hshort =>
      rw [hshort.failed.1]
      exact hshort.failed.2.le
  | waits chunks hresults hlength hreceive =>
      rw [hreceive]
      exact hlength.le

/-! ## The first write of the handler -/

/-- The call writes `block`. -/
def FsCall.Puts (block : Block) (op : FsCall) : Prop :=
  ∃ b commit, op = .diskWriteblock b block commit

theorem not_writes_of_reads {α : Type} {program : FsProg α}
    (hcalls : program.Calls FsCall.Reads) :
    program.Calls fun op : FsCall => ¬op.Writes :=
  hcalls.mono fun _ => FsCall.not_writes_of_reads

theorem leads_put
    {α : Type} {block : Block} (b : BlockNo) (commit : Option Commit)
    (f : Unit → FsProg α) :
    (call (.diskWriteblock b block commit) >>= f).Leads FsCall.Writes
      (FsCall.Puts block) := by
  constructor
  · intro _
    exact ⟨b, commit, rfl⟩
  · intro hwrites
    exact absurd trivial hwrites

theorem leads_writeLocked
    (user : Name) (blockId : ℕ) (data : Block) (target : TargetInode) :
    (writeLocked user blockId data target).Leads FsCall.Writes
      (FsCall.Puts data) := by
  unfold writeLocked
  refine Prog.Leads.after (not_writes_of_reads (calls_unlockParent target)) fun _ => ?_
  refine Prog.Leads.after (calls_call not_false) fun block => ?_
  dsimp only
  split
  case isTrue => trivial
  case isFalse =>
      split
      case isTrue =>
          refine Prog.Leads.after (calls_call not_false) fun _ => ?_
          refine Prog.Leads.after (calls_call not_false) fun empty => ?_
          split
          case isTrue => exact Prog.Leads.after (calls_call not_false) fun _ => trivial
          case isFalse =>
              refine Prog.Leads.after (calls_call not_false) fun newDataBlock => ?_
              refine Prog.Leads.after (calls_call not_false) fun _ => ?_
              refine Prog.Leads.after (calls_call not_false) fun _ => ?_
              exact leads_put _ _ _
      case isFalse => exact leads_put _ _ _

theorem leads_handleWriteblock
    (req : List Byte) (fields : RequestFields) (data : Block) :
    (handleWriteblock req fields data).Leads FsCall.Writes (FsCall.Puts data) := by
  unfold handleWriteblock
  split
  · trivial
  · split
    · trivial
    · split
      · trivial
      · split
        · trivial
        · refine Prog.Leads.after (not_writes_of_reads (calls_traverseDir _ _))
            fun target => ?_
          split
          · exact Prog.Leads.of_calls (calls_call not_false)
          · refine Prog.Leads.after (calls_call not_false) fun _ => ?_
            refine Prog.Leads.bind (leads_writeLocked _ _ _ _) fun written => ?_
            refine Prog.Leads.after (calls_call not_false) fun _ => ?_
            split
            · exact Prog.Leads.of_calls (calls_call not_false)
            · trivial

/-! ## A path to the write -/

theorem may_call
    {op : FsCall} (hop : ¬op.Writes) (answer : fsInterface.Answer op) :
    (call op).May FsCall.Writes answer :=
  Prog.may_perform hop answer

/-- A directory block on which every entry has the name `name`. -/
def listing (name : Name) : Block :=
  ofEntries fun _ => { name := strcpy (fun _ => 0) name, inodeBlock := 1 }

/-- An inode of `user` with `size` blocks. -/
def ownedInode (type : Byte) (user : Name) (size : ℕ) : FsInode where
  type := type
  owner := strcpy (fun _ => 0) user
  size := UInt32.ofNat size
  blocks := fun _ => 1

theorem cString_ownedInode
    {user : Name} (type : Byte) (size : ℕ) (hlength : user.length ≤ fsMaxUserName)
    (hnul : (0 : Byte) ∉ user) : cString (ownedInode type user size).owner = user :=
  cString_strcpy _ (Nat.lt_succ_of_le hlength) hnul

theorem may_checkExistance
    {name : Name} {inode : FsInode} (result : TargetInode) (hsize : inode.size = 1)
    (hlength : name.length ≤ fsMaxFileName) (hnul : (0 : Byte) ∉ name) :
    ∃ target : TargetInode, target.valid = true ∧
      (checkExistance result inode name none).May FsCall.Writes (target, none) := by
  have hname : cString (strcpy (fun _ => 0) name : Fin (fsMaxFileName + 1) → Byte) = name :=
    cString_strcpy _ (Nat.lt_succ_of_le hlength) hnul
  have hfound : ∃ target : TargetInode, target.valid = true ∧
      checkEntries name 0 (inode.block 0) (asEntries (listing name))
        (List.finRange fsDirentries) { result with valid := false } none =
          (true, target, none) := by
    refine ⟨_, ?_, by
      rw [listing, asEntries_ofEntries, List.finRange_succ, checkEntries,
        if_pos ⟨(by decide : (1 : BlockNo) ≠ 0), hname⟩]
      rfl⟩
    rfl
  obtain ⟨target, hvalid, hcheck⟩ := hfound
  refine ⟨target, hvalid, ?_⟩
  have hone : inode.size.toNat = 1 := by
    rw [hsize]
    rfl
  rw [checkExistance, hone, checkBlocks]
  refine Prog.May.bind (may_call (by exact not_false) (listing name)) ?_
  rw [hcheck]
  rfl

theorem may_traverseDirLoop
    {user : Name} (huser : user.length ≤ fsMaxUserName) (hnul : (0 : Byte) ∉ user)
    {names : Path} {result : TargetInode} {inode : FsInode} (b : BlockNo)
    (hsize : inode.size = 1) (hvalid : result.valid = true)
    (hnames : ∀ name ∈ names, name.length ≤ fsMaxFileName ∧ (0 : Byte) ∉ name) :
    ∃ target : TargetInode, target.valid = true ∧
      (traverseDirLoop user names result inode b).May FsCall.Writes target := by
  induction names generalizing result inode b with
  | nil => exact ⟨result, hvalid, rfl⟩
  | cons name rest ih =>
      obtain ⟨hlength, hname⟩ := hnames name List.mem_cons_self
      obtain ⟨found, hfound, hmay⟩ := may_checkExistance result hsize hlength hname
      by_cases hrest : rest = []
      · refine ⟨found, hfound, hmay.bind ?_⟩
        dsimp only
        rw [if_pos (Or.inr hrest)]
        rfl
      · have hgo : ¬(found.valid = false ∨ rest = []) := by
          rw [hfound]
          simpa using hrest
        obtain ⟨target, htarget, hloop⟩ :=
          @ih { found with parentInodeBlock := found.inodeBlock }
            (ownedInode dirType user 1) found.inodeBlock rfl hfound
            fun n hn => hnames n (List.mem_cons_of_mem _ hn)
        refine ⟨target, htarget, hmay.bind ?_⟩
        dsimp only
        rw [if_neg hgo]
        refine Prog.May.bind (may_call (by exact not_false) ()) ?_
        refine Prog.May.bind (may_call (by exact not_false) ()) ?_
        refine Prog.May.bind
          (may_call (by exact not_false) (ofInode (ownedInode dirType user 1))) ?_
        rw [asInode_ofInode, if_neg]
        · exact hloop
        · rw [not_or, not_not, not_not]
          exact ⟨cString_ownedInode dirType 1 huser hnul, rfl⟩

theorem may_traverseDir
    {user : Name} {path : Path} (huser : user.length ≤ fsMaxUserName)
    (hnul : (0 : Byte) ∉ user)
    (hnames : ∀ name ∈ path, name.length ≤ fsMaxFileName ∧ (0 : Byte) ∉ name) :
    ∃ target : TargetInode, target.valid = true ∧
      (traverseDir user path).May FsCall.Writes target := by
  unfold traverseDir
  by_cases hpath : path = []
  · exact ⟨_, rfl, by rw [if_pos hpath]; rfl⟩
  · obtain ⟨target, htarget, hloop⟩ := @may_traverseDirLoop user huser hnul path
      { valid := true } (ownedInode dirType user 1) 0 rfl rfl hnames
    refine ⟨target, htarget, ?_⟩
    rw [if_neg hpath]
    refine Prog.May.bind (may_call (by exact not_false) ()) ?_
    refine Prog.May.bind
      (may_call (by exact not_false) (ofInode (ownedInode dirType user 1))) ?_
    rw [asInode_ofInode]
    exact hloop

theorem may_unlockParent (target : TargetInode) :
    (unlockParent target).May FsCall.Writes () := by
  unfold unlockParent
  split
  case isTrue =>
      have hquiet : ¬(FsCall.unlockShared target.parentInodeBlock).Writes := not_false
      exact may_call hquiet ()
  case isFalse => rfl

/-- With the right answers from the disk, a request that can be parsed gets
through to the write. -/
theorem exists_put
    {Q : FsCall → Prop} {req : List Byte} {fields : RequestFields} {data : Block}
    {index : ℕ} {path : Path} (hindex : blockIndex req = some index)
    (hpath : pathParser fields.pathname = some path)
    (hleads : (handleWriteblock req fields data).Leads FsCall.Writes Q) :
    ∃ b commit, Q (.diskWriteblock b data commit) := by
  obtain ⟨blockStr, rest, hword, hblock, rfl, hbound⟩ := blockIndex_eq_some hindex
  have hnames : ∀ name ∈ path, name.length ≤ fsMaxFileName ∧ (0 : Byte) ∉ name := by
    intro name hname
    have hcomponent := pathParser_components hpath fields.pathname_noNul hname
    exact ⟨hcomponent.1, hcomponent.2.2⟩
  obtain ⟨target, hvalid, htraverse⟩ :=
    may_traverseDir fields.username_length fields.username_noNul hnames
  simp only [handleWriteblock, hword, hblock, Bool.true_eq_false, if_false,
    if_neg (Nat.not_le.mpr hbound), hpath, ge_iff_le] at hleads
  have hlocked := hleads.of_may htraverse
  rw [if_neg (by simp [hvalid])] at hlocked
  have hwrite := hlocked.of_may (may_call (by exact not_false) ())
  simp only [writeLocked, Prog.bind_assoc] at hwrite
  have hread := hwrite.of_may (may_unlockParent target)
  have hfile := hread.of_may (may_call (by exact not_false)
    (ofInode (ownedInode fileType fields.username (stoi blockStr + 1))))
  have hsize : (ownedInode fileType fields.username (stoi blockStr + 1)).size.toNat =
      stoi blockStr + 1 := by
    rw [ownedInode, UInt32.toNat_ofNat']
    exact Nat.mod_eq_of_lt (lt_of_le_of_lt hbound (by decide))
  simp only [asInode_ofInode, hsize] at hfile
  rw [if_neg, if_neg (by omega)] at hfile
  · exact ⟨_, _, hfile.1 trivial⟩
  · rw [not_or, not_or, not_not, not_not]
    exact ⟨cString_ownedInode _ _ fields.username_length fields.username_noNul, rfl,
      by omega⟩

/-! ## The handler as a whole -/

theorem ofFn_blockAt
    {data : List Byte} (beyond : Block) (hlength : data.length = fsBlockSize) :
    List.ofFn (blockAt data beyond) = data := by
  apply List.ext_getElem
  · rw [List.length_ofFn, hlength]
  · intro i hi hi'
    rw [List.getElem_ofFn, blockAt, List.getElem?_append_left hi',
      List.getElem?_eq_getElem hi', Option.getD_some]

theorem handleWriteblockFrom_of_some
    {req : List Byte} {index : ℕ} {data : List Byte} {exit : Received Unit}
    (hindex : blockIndex req = some index) (fields : RequestFields) (beyond : Block)
    (hreceive : receiveData [] dataResults = (data, exit)) :
    handleWriteblockFrom req fields beyond dataResults =
      exit.map fun _ => handleWriteblock req fields (blockAt data beyond) := by
  unfold handleWriteblockFrom
  rw [hindex, hreceive]

theorem handleWriteblock_of_pathParser
    {fields : RequestFields} (req : List Byte) (data : Block)
    (hpath : pathParser fields.pathname = none) :
    handleWriteblock req fields data = return := by
  unfold handleWriteblock
  rw [hpath]
  split
  · rfl
  · split
    · rfl
    · split <;> rfl

/-- A refused block number: nothing is received and nothing is done. -/
theorem commitsComplete_of_refused
    {req : List Byte} (hindex : blockIndex req = none) (fields : RequestFields)
    (beyond : Block) (results : List (RecvResult Chunk)) :
    CommitsComplete req fields beyond results := by
  have hreturn : handleWriteblockFrom req fields beyond results = .value (return) := by
    unfold handleWriteblockFrom
    rw [hindex]
  refine ⟨?_, ?_, length_receiveData_le results, ?_⟩
  · intro hwaiting
    rw [hreturn] at hwaiting
    cases hwaiting
  · rw [hreturn]
    exact nofun
  · intro handler hhandler
    rw [hreturn] at hhandler
    cases hhandler
    trivial

/-- Once the loop has ended, the handler goes on with what it has received. -/
theorem commitsComplete_of_value
    {req : List Byte} {fields : RequestFields} {beyond : Block} {index : ℕ}
    {data : List Byte} (hindex : blockIndex req = some index)
    (hreceive : receiveData [] dataResults = (data, .value ()))
    (hleads : (handleWriteblock req fields (blockAt data beyond)).Leads FsCall.Writes
      (FsCall.Stores (sentData dataResults))) :
    CommitsComplete req fields beyond dataResults := by
  have hvalue := handleWriteblockFrom_of_some hindex fields beyond hreceive
  refine ⟨?_, ?_, length_receiveData_le dataResults, ?_⟩
  · intro hwaiting
    rw [hvalue] at hwaiting
    cases hwaiting
  · rw [hvalue]
    exact nofun
  · intro handler hhandler
    rw [hvalue] at hhandler
    cases hhandler
    exact hleads

theorem not_stores_of_short
    {bytes : List Byte} {op : FsCall} (hshort : bytes.length < fsBlockSize) :
    ¬op.Stores bytes := by
  rintro ⟨b, block, commit, _, hbytes⟩
  have hlength := congrArg List.length hbytes
  rw [List.length_ofFn, List.length_take] at hlength
  omega

theorem CommitsComplete.not_failed
    {req : List Byte} {fields : RequestFields} {beyond : Block} {index : ℕ}
    (hcomplete : CommitsComplete req fields beyond dataResults)
    (hindex : blockIndex req = some index) : ¬StopsShort .failed dataResults := by
  intro hshort
  refine hcomplete.catches ?_
  rw [handleWriteblockFrom_of_some hindex fields beyond hshort.failed.1]
  rfl

theorem CommitsComplete.not_ended
    {req : List Byte} {fields : RequestFields} {beyond : Block} {index : ℕ}
    {path : Path} (hcomplete : CommitsComplete req fields beyond dataResults)
    (hindex : blockIndex req = some index)
    (hpath : pathParser fields.pathname = some path) :
    ¬StopsShort .ended dataResults := by
  intro hshort
  obtain ⟨hreceive, hlength⟩ := hshort.ended
  have hleads := hcomplete.complete _
    (handleWriteblockFrom_of_some hindex fields beyond hreceive)
  obtain ⟨b, commit, hstores⟩ := exists_put hindex hpath hleads
  exact not_stores_of_short hlength hstores

/-- A write is committed with complete data, and no exception escapes, unless
`recv` fails before 512 bytes have arrived, or the connection ends before and
nothing else is wrong with the request. -/
theorem commitsComplete_iff
    (req : List Byte) (fields : RequestFields) (beyond : Block)
    (results : List (RecvResult Chunk)) :
    CommitsComplete req fields beyond results ↔
      (blockIndex req).isSome → ¬StopsShort .failed results ∧
        ((pathParser fields.pathname).isSome → ¬StopsShort .ended results) := by
  cases hindex : blockIndex req with
  | none =>
      have hcomplete := commitsComplete_of_refused hindex fields beyond results
      exact ⟨fun _ hsome => absurd hsome (by decide), fun _ => hcomplete⟩
  | some index =>
      constructor
      · intro hcomplete _
        refine ⟨hcomplete.not_failed hindex, fun hsome => ?_⟩
        obtain ⟨path, hpath⟩ := Option.isSome_iff_exists.mp hsome
        exact hcomplete.not_ended hindex hpath
      · intro hgood
        obtain ⟨hfailed, hended⟩ := hgood rfl
        cases dataCase results with
        | full data hreceive hdata hlength =>
            refine commitsComplete_of_value hindex hreceive
              ((leads_handleWriteblock req fields _).mono ?_)
            rintro op ⟨b, commit, rfl⟩
            exact ⟨b, _, commit, rfl, (ofFn_blockAt beyond hlength).trans hdata⟩
        | ended hshort =>
            have hpath : pathParser fields.pathname = none := by
              by_contra hne
              exact hended (Option.isSome_iff_ne_none.mpr hne) hshort
            refine commitsComplete_of_value hindex hshort.ended.1 ?_
            rw [handleWriteblock_of_pathParser req _ hpath]
            trivial
        | failed hshort => exact absurd hshort hfailed
        | waits chunks hresults hlength hreceive =>
            have hwaiting := handleWriteblockFrom_of_some hindex fields beyond hreceive
            refine ⟨fun _ => ⟨chunks, hresults, hlength⟩, ?_,
              length_receiveData_le results, ?_⟩
            · rw [hwaiting]
              exact nofun
            · intro handler hhandler
              rw [hwaiting] at hhandler
              cases hhandler

/-- User `u`, file `/a`. -/
def writeFields : RequestFields where
  username := [119]
  pathname := [47, 119]
  username_ne_nil := by decide
  username_length := by decide
  username_noNul := by decide
  pathname_ne_nil := by decide
  pathname_length := by decide
  pathname_noNul := by decide

/-- A write to block 0; the client resets the connection after one byte. -/
theorem not_commitsComplete :
    handleWriteblockFrom [32, 48] writeFields (fun _ => 0)
      [.got ⟨[1], by decide⟩, .failed] = .thrown ∧
    ¬CommitsComplete [32, 48] writeFields (fun _ => 0)
      [.got ⟨[1], by decide⟩, .failed] := by
  have hindex : blockIndex [32, 48] = some 0 := by decide
  have hshort : StopsShort .failed [.got ⟨[1], by decide⟩, .failed] :=
    ⟨[⟨[1], by decide⟩], [], rfl, by decide⟩
  refine ⟨?_, fun hcomplete => hcomplete.not_failed hindex hshort⟩
  rw [handleWriteblockFrom_of_some hindex _ _ hshort.failed.1]
  rfl

end FileServer
end Eecs482
