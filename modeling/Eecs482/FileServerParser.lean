import Eecs482.Words
import Eecs482.FileServerCalls

/-!
# The request parser

`handle_requests` receives a header, extracts its words, tests their lengths
and the number of spaces, and calls a handler with the rest of the header.  A
handler extracts one more word and parses the pathname before it resolves the
path.  All of this depends on the header only through its words and its number
of spaces.
-/

namespace Eecs482
namespace FileServer

/-- `max_header_len`. -/
abbrev maxHeaderLen : ℕ := 13 + fsMaxUserName + fsMaxPathName + 3 + 3

/-- A request header as `handle_requests` has received it. -/
structure Header where
  bytes : List Byte
  noNul : (0 : Byte) ∉ bytes
  length_le : bytes.length ≤ maxHeaderLen

/-- The bytes of a stream which holds no NUL. -/
abbrev Stream := { bytes : List Byte // (0 : Byte) ∉ bytes }

/-- The receiving loop of `handle_requests` with what it has got so far; `none`
when it closes the connection. -/
def recvHeader (reqHeader : Header) : List Byte → Option Header
  | [] => none
  | c :: rest =>
      if hc : c = 0 then some reqHeader
      else if hlength : reqHeader.bytes.length + 1 > maxHeaderLen then none
      else recvHeader {
        bytes := reqHeader.bytes ++ [c]
        noNul := by simp [reqHeader.noNul, Ne.symm hc]
        length_le := by
          rw [List.length_append, List.length_singleton]
          exact Nat.le_of_not_lt hlength } rest

/-- `find_space`: each round of its loop moves behind the next space. -/
def findSpace (cnt : ℕ) : List Byte → ℕ
  | [] => cnt
  | c :: rest => findSpace (if c = space then cnt + 1 else cnt) rest

def checkRequestType (requestType : Name) (reqHeader : List Byte) : ℕ :=
  if requestType = readblockWord then
    if findSpace 0 reqHeader ≠ 3 then 0 else 1
  else if requestType = writeblockWord then
    if findSpace 0 reqHeader ≠ 3 then 0 else 2
  else if requestType = createWord then
    if findSpace 0 reqHeader ≠ 3 then 0 else 3
  else if requestType = deleteWord then
    if findSpace 0 reqHeader ≠ 2 then 0 else 4
  else 0

/-- What `extractWord` returns comes from the stream. -/
theorem extractWord_spec
    {stream word rest : List Byte} (h : extractWord stream = some (word, rest)) :
    word ≠ [] ∧ (∀ c ∈ word, c ∈ stream ∧ isSpace c = false) ∧
      ∀ c ∈ rest, c ∈ stream := by
  simp only [extractWord] at h
  split at h
  · cases h
  · rename_i hnil
    obtain ⟨c, tail, hdrop⟩ := List.exists_cons_of_ne_nil hnil
    have hc : isSpace c = false := by
      have hhead := List.head?_dropWhile_not isSpace stream
      simpa [hdrop] using hhead
    have hsub : ∀ d ∈ stream.dropWhile isSpace, d ∈ stream := fun d hd =>
      (List.dropWhile_sublist isSpace).subset hd
    cases h
    refine ⟨by simp [hdrop, hc], ?_, ?_⟩
    · intro d hd
      exact ⟨hsub d ((List.takeWhile_sublist _).subset hd),
        by simpa using List.mem_takeWhile_imp hd⟩
    · intro d hd
      exact hsub d ((List.dropWhile_sublist _).subset hd)

/-- `req >> word` on the stream of a header. -/
def extract (req : Stream) : Option ({ word : Stream // word.val ≠ [] } × Stream) :=
  match h : extractWord req.val with
  | none => none
  | some (word, rest) =>
      have hspec := extractWord_spec h
      some (⟨⟨word, fun hzero => req.property (hspec.2.1 0 hzero).1⟩, hspec.1⟩,
        ⟨rest, fun hzero => req.property (hspec.2.2 0 hzero)⟩)

/-- The `switch` of `handle_requests`. -/
def dispatch
    (requestType : ℕ) (req : List Byte) (fields : RequestFields) (data : Block) :
    Option Request :=
  match requestType with
  | 1 => some (.readblock req fields)
  | 2 => some (.writeblock req fields data)
  | 3 => some (.create req fields)
  | 4 => some (.delete fields)
  | _ => none

/-- The request `handle_requests` calls a handler for; `none` when it calls
none.  `data` is the block that follows the header of a write. -/
def selectRequest (reqHeader : Header) (data : Block) : Option Request := do
  let (requestType, req) ← extract ⟨reqHeader.bytes, reqHeader.noNul⟩
  let (username, req) ← extract req
  let (pathname, req) ← extract req
  if hlength : username.val.val.length > fsMaxUserName ∨
      pathname.val.val.length > fsMaxPathName then none
  else
    let fields : RequestFields := {
      username := username.val.val
      pathname := pathname.val.val
      username_ne_nil := username.property
      username_length := by omega
      username_noNul := username.val.property
      pathname_ne_nil := pathname.property
      pathname_length := by omega
      pathname_noNul := pathname.val.property }
    dispatch (checkRequestType requestType.val.val reqHeader.bytes) req.val fields
      data

/-- The thread of a connection on which the client sends `stream`. -/
def handleRequests (stack : Stack) (stream : List Byte) (data : Block) :
    FsProg Unit :=
  match recvHeader ⟨[], by simp, by simp⟩ stream with
  | none => call .close
  | some reqHeader =>
      match selectRequest reqHeader data with
      | none => call .close
      | some request => serve stack request

/-! ## The handlers up to path resolution -/

/-- The word a handler extracts from the rest of the header. -/
def argument (req : List Byte) : Name :=
  match extractWord req with
  | none => []
  | some (word, _) => word

/-- The words a handler is called for. -/
def Request.words : Request → List Name
  | .readblock req fields =>
      [readblockWord, fields.username, fields.pathname, argument req]
  | .writeblock req fields _ =>
      [writeblockWord, fields.username, fields.pathname, argument req]
  | .create req fields =>
      [createWord, fields.username, fields.pathname, argument req]
  | .delete fields => [deleteWord, fields.username, fields.pathname]

/-- The path a handler passes to `traverse_dir`; `none` when it returns
before. -/
def Request.traversed : Request → Option Path
  | .readblock req fields | .writeblock req fields _ => do
      let _ ← blockIndex req
      pathParser fields.pathname
  | .create req fields => do
      let _ ← createType req
      let pathNames ← pathParser fields.pathname
      some pathNames.dropLast
  | .delete fields => do
      let pathNames ← pathParser fields.pathname
      some pathNames.dropLast

/-- The block `handle_create` reserves before it resolves the path; `none` when
there is no free block. -/
def Request.reserve : Request → FsProg (Option BlockNo)
  | .create _ _ => do
      call .lockFree
      let empty : Bool ← call .freeEmpty
      if empty then do
        call .unlockFree
        return none
      else do
        let newInodeBlock ← call .freeFront
        call .freePop
        call .unlockFree
        return some newInodeBlock
  | _ => return some 0

/-- The name a handler looks up in the directory it has resolved. -/
def Request.targetName (request : Request) : Name :=
  ((pathParser request.fields.pathname).getD []).getLastD []

/-- What is left of a handler once `traverse_dir` has returned. -/
def Request.resolved
    (stack : Stack) (newInodeBlock : BlockNo) (target : TargetInode)
    (request : Request) : FsProg Unit :=
  match request with
  | .readblock req fields =>
      if target.valid = false then
        call (.unlockShared target.parentInodeBlock)
      else do
        call (.lockShared target.inodeBlock)
        let data ← readLocked fields.username (stoi (argument req)) target
        call (.unlockShared target.inodeBlock)
        match data with
        | none => return
        | some data =>
            call (.sendResponse (responseHeader request.words ++ List.ofFn data))
  | .writeblock req fields data =>
      if target.valid = false then
        call (.unlockShared target.parentInodeBlock)
      else do
        call (.lock target.inodeBlock)
        let written ←
          writeLocked fields.username (stoi (argument req)) data target
        call (.unlock target.inodeBlock)
        if written then call (.sendResponse (responseHeader request.words))
        else return
  | .create req fields =>
      if target.valid = false then do
        call (.unlockShared target.parentInodeBlock)
        returnEmptyBlock newInodeBlock
      else do
        call (.lock target.inodeBlock)
        let created ← createLocked stack ((argument req).headD 0) fields.username
          request.targetName newInodeBlock target
        call (.unlock target.inodeBlock)
        if created then call (.sendResponse (responseHeader request.words))
        else return
  | .delete fields =>
      if target.valid = false then
        call (.unlockShared target.parentInodeBlock)
      else do
        call (.lock target.inodeBlock)
        let deleted ← deleteLocked stack fields.username request.targetName target
        call (.unlock target.inodeBlock)
        match deleted with
        | none => return
        | some (fileInode, parentEntryInodeBlock) => do
            call .lockFree
            pushBlocks fileInode.dataBlocks
            call (.freePush parentEntryInodeBlock)
            call .unlockFree
            call (.sendResponse (responseHeader request.words))

/-- A thread which goes on to `traverse_dir`, with `path` as its argument. -/
def Request.resolving (stack : Stack) (path : Path) (request : Request) :
    FsProg Unit := do
  let reserved ← request.reserve
  match reserved with
  | none => call .close
  | some newInodeBlock => do
      let target ← traverseDir request.fields.username path
      request.resolved stack newInodeBlock target
      call .close

/-- A handler is its parsing, then `traverse_dir`, then the rest. -/
theorem serve_eq (stack : Stack) (request : Request) :
    serve stack request =
      match request.traversed with
      | none => call .close
      | some path => request.resolving stack path := by
  simp only [Request.resolving]
  cases request with
  | readblock req fields =>
      simp only [serve, handleReadblock, Request.traversed, Request.resolved,
        Request.reserve, Request.words, blockIndex, argument]
      cases extractWord req with
      | none => rfl
      | some result =>
          obtain ⟨blockStr, rest⟩ := result
          cases hblock : isBlock blockStr with
          | false => simp [hblock]
          | true =>
              by_cases hindex : stoi blockStr < fsMaxFileBlocks
              · cases pathParser fields.pathname with
                | none => simp [hblock, hindex]
                | some path =>
                    have haccepted : isBlock blockStr ≠ false := by simp [hblock]
                    simp only [if_neg haccepted, if_pos (And.intro hblock hindex)]
                    rewrite [if_neg (Nat.not_le.mpr hindex), bind_assoc]
                    rfl
              · simp [hblock, hindex, Nat.not_lt.mp hindex]
  | writeblock req fields data =>
      simp only [serve, handleWriteblock, Request.traversed, Request.resolved,
        Request.reserve, Request.words, blockIndex, argument]
      cases extractWord req with
      | none => rfl
      | some result =>
          obtain ⟨blockStr, rest⟩ := result
          cases hblock : isBlock blockStr with
          | false => simp [hblock]
          | true =>
              by_cases hindex : stoi blockStr < fsMaxFileBlocks
              · cases pathParser fields.pathname with
                | none => simp [hblock, hindex]
                | some path =>
                    simp [hblock, hindex, Nat.not_le.mpr hindex, Request.fields]
              · simp [hblock, hindex, Nat.not_lt.mp hindex]
  | create req fields =>
      simp only [serve, handleCreate, Request.traversed, Request.resolved,
        Request.reserve, Request.words, createType, argument]
      cases extractWord req with
      | none => rfl
      | some result =>
          obtain ⟨type, rest⟩ := result
          rcases type with - | ⟨c, - | ⟨d, tail⟩⟩
          · simp
          · by_cases hc : c = fileType ∨ c = dirType
            · cases hpath : pathParser fields.pathname with
              | none => simp [hc]
              | some path =>
                  have htype : ¬([c] ≠ [fileType] ∧ [c] ≠ [dirType]) := by
                    rintro ⟨hfile, hdir⟩
                    rcases hc with rfl | rfl
                    · exact hfile rfl
                    · exact hdir rfl
                  simp only [if_neg htype, if_pos hc, bind_assoc]
                  refine bind_congr fun _ => bind_congr fun empty => ?_
                  cases empty with
                  | true => simp
                  | false => simp [Request.targetName, Request.fields, hpath]
            · have htype : [c] ≠ [fileType] ∧ [c] ≠ [dirType] := by simpa using hc
              simp [htype, hc]
          · simp
  | delete fields =>
      simp only [serve, handleDelete, Request.traversed, Request.resolved,
        Request.reserve, Request.words, Request.targetName, Request.fields]
      cases pathParser fields.pathname with
      | none => rfl
      | some path =>
          dsimp only
          rewrite [bind_assoc]
          rfl

/-! ## Words and spaces -/

theorem findSpace_eq (cnt : ℕ) (bytes : List Byte) :
    findSpace cnt bytes = cnt + bytes.count space := by
  induction bytes generalizing cnt with
  | nil => rfl
  | cons c rest ih =>
      rw [findSpace, ih, List.count_cons]
      by_cases hc : c = space
      · simp only [hc, if_true, beq_self_eq_true]
        omega
      · simp [hc]

theorem words_of_extractWord
    {stream word rest : List Byte} (h : extractWord stream = some (word, rest)) :
    words isSpace stream = word :: words isSpace rest := by
  simp only [extractWord] at h
  split at h
  · cases h
  · rename_i hnil
    cases h
    rw [← Words.words_dropWhile stream]
    apply Words.words_eq_cons hnil
    intro c hc
    have hhead := List.head?_dropWhile_not isSpace stream
    rw [Option.mem_def.mp hc] at hhead
    simpa using hhead

theorem words_eq_nil_of_extractWord
    {stream : List Byte} (h : extractWord stream = none) :
    words isSpace stream = [] := by
  simp only [extractWord] at h
  split at h
  · rename_i hnil
    rw [← Words.words_dropWhile stream, hnil]
    rfl
  · cases h

theorem exists_extractWord
    {stream : List Byte} {word : Name} {rest : List Name}
    (h : words isSpace stream = word :: rest) :
    ∃ tail, extractWord stream = some (word, tail) ∧ words isSpace tail = rest := by
  cases hextract : extractWord stream with
  | none => rw [words_eq_nil_of_extractWord hextract] at h; cases h
  | some result =>
      obtain ⟨first, tail⟩ := result
      rw [words_of_extractWord hextract] at h
      cases h
      exact ⟨tail, rfl, rfl⟩

theorem argument_of_words
    {req : List Byte} {word : Name} {rest : List Name}
    (h : words isSpace req = word :: rest) : argument req = word := by
  obtain ⟨tail, hextract, _⟩ := exists_extractWord h
  simp [argument, hextract]

theorem extract_eq_some
    {req rest : Stream} {word : { word : Stream // word.val ≠ [] }} :
    extract req = some (word, rest) ↔
      extractWord req.val = some (word.val.val, rest.val) := by
  unfold extract
  split
  · rename_i hextract
    simp [hextract]
  · rename_i first tail hextract
    simp [hextract, Prod.ext_iff, Subtype.ext_iff]

theorem exists_extract
    {req : Stream} {word : Name} {rest : List Name}
    (h : words isSpace req.val = word :: rest) :
    ∃ first tail, extract req = some (first, tail) ∧ first.val.val = word ∧
      words isSpace tail.val = rest := by
  obtain ⟨tail, hextract, htail⟩ := exists_extractWord h
  have hspec := extractWord_spec hextract
  refine ⟨⟨⟨word, fun hzero => req.property (hspec.2.1 0 hzero).1⟩, hspec.1⟩,
    ⟨tail, fun hzero => req.property (hspec.2.2 0 hzero)⟩, ?_, rfl, htail⟩
  exact extract_eq_some.mpr hextract

theorem dispatch_fields
    {requestType : ℕ} {req : List Byte} {fields : RequestFields} {data : Block}
    {request : Request} (h : dispatch requestType req fields data = some request) :
    request.fields = fields := by
  unfold dispatch at h
  split at h <;> cases h <;> rfl

/-- The words of a header for which a handler is called. -/
theorem words_of_selectRequest
    {reqHeader : Header} {data : Block} {request : Request}
    (h : selectRequest reqHeader data = some request) :
    ∃ requestType req,
      words isSpace reqHeader.bytes = requestType :: request.fields.username ::
        request.fields.pathname :: words isSpace req ∧
      dispatch (checkRequestType requestType reqHeader.bytes) req request.fields
        data = some request := by
  simp only [selectRequest, Option.bind_eq_bind, Option.bind_eq_some_iff] at h
  obtain ⟨⟨requestType, req⟩, htype, ⟨username, req'⟩, huser, ⟨pathname, req''⟩,
    hpath, h⟩ := h
  split at h
  · cases h
  · have hfields := dispatch_fields h
    refine ⟨requestType.val.val, req''.val, ?_, hfields ▸ h⟩
    rw [hfields, words_of_extractWord (extract_eq_some.mp htype),
      words_of_extractWord (extract_eq_some.mp huser),
      words_of_extractWord (extract_eq_some.mp hpath)]

/-- What a header with three words or more selects. -/
theorem exists_dispatch
    {reqHeader : Header} (data : Block) {requestType username pathname : Name}
    {rest : List Name}
    (hwords : words isSpace reqHeader.bytes =
      requestType :: username :: pathname :: rest)
    (husername : username.length ≤ fsMaxUserName)
    (hpathname : pathname.length ≤ fsMaxPathName) :
    ∃ fields req, fields.username = username ∧ fields.pathname = pathname ∧
      words isSpace req = rest ∧
      selectRequest reqHeader data =
        dispatch (checkRequestType requestType reqHeader.bytes) req fields data := by
  obtain ⟨first, req, htype, rfl, hreq⟩ :=
    @exists_extract ⟨reqHeader.bytes, reqHeader.noNul⟩ _ _ hwords
  obtain ⟨second, req', huser, rfl, hreq'⟩ := exists_extract hreq
  obtain ⟨third, req'', hpath, rfl, hreq''⟩ := exists_extract hreq'
  have hlength : ¬(second.val.val.length > fsMaxUserName ∨
      third.val.val.length > fsMaxPathName) := by omega
  refine ⟨⟨second.val.val, third.val.val, second.property, husername,
    second.val.property, third.property, hpathname, third.val.property⟩, req''.val,
    rfl, rfl, hreq'', ?_⟩
  simp only [selectRequest, htype, huser, hpath, Option.bind_eq_bind,
    Option.bind_some, dif_neg hlength]

/-! ## Responses -/

/-- What the client may be sent in response to a request. -/
def Request.Response : Request → List Byte → Prop
  | .readblock req fields, message => ∃ data : Block, message =
      responseHeader (Request.readblock req fields).words ++ List.ofFn data
  | request, message => message = responseHeader request.words

theorem calls_resolved
    (stack : Stack) (newInodeBlock : BlockNo) (target : TargetInode)
    (request : Request) :
    (request.resolved stack newInodeBlock target).Calls
      (FsCall.Responds request.Response) := by
  have hsilent : ∀ {α : Type} {program : FsProg α}, program.Calls FsCall.Silent →
      program.Calls (FsCall.Responds request.Response) := fun h =>
    h.mono fun _ => FsCall.responds_of_silent
  cases request with
  | readblock req fields =>
      dsimp only [Request.resolved]
      split
      · exact calls_call trivial
      · refine Prog.Calls.bind (calls_call trivial) fun _ => ?_
        refine Prog.Calls.bind
          (hsilent (silent_of_reads (calls_readLocked _ _ _))) fun data => ?_
        refine Prog.Calls.bind (calls_call trivial) fun _ => ?_
        cases data with
        | none => trivial
        | some data => exact calls_call ⟨data, rfl⟩
  | writeblock req fields data =>
      dsimp only [Request.resolved]
      split
      · exact calls_call trivial
      · refine Prog.Calls.bind (calls_call trivial) fun _ => ?_
        refine Prog.Calls.bind (hsilent (calls_writeLocked _ _ _ _)) fun written => ?_
        refine Prog.Calls.bind (calls_call trivial) fun _ => ?_
        cases written with
        | false => trivial
        | true => exact calls_call rfl
  | create req fields =>
      dsimp only [Request.resolved]
      split
      · exact Prog.Calls.bind (calls_call trivial) fun _ =>
          hsilent (calls_returnEmptyBlock _)
      · refine Prog.Calls.bind (calls_call trivial) fun _ => ?_
        refine Prog.Calls.bind
          (hsilent (calls_createLocked _ _ _ _ _ _)) fun created => ?_
        refine Prog.Calls.bind (calls_call trivial) fun _ => ?_
        cases created with
        | false => trivial
        | true => exact calls_call rfl
  | delete fields =>
      dsimp only [Request.resolved]
      split
      · exact calls_call trivial
      · refine Prog.Calls.bind (calls_call trivial) fun _ => ?_
        refine Prog.Calls.bind (hsilent (calls_deleteLocked _ _ _ _)) fun deleted => ?_
        refine Prog.Calls.bind (calls_call trivial) fun _ => ?_
        cases deleted with
        | none => trivial
        | some deleted =>
            refine Prog.Calls.bind (calls_call trivial) fun _ => ?_
            refine Prog.Calls.bind (hsilent (calls_pushBlocks _)) fun _ => ?_
            refine Prog.Calls.bind (calls_call trivial) fun _ => ?_
            refine Prog.Calls.bind (calls_call trivial) fun _ => ?_
            exact calls_call rfl

theorem calls_reserve (request : Request) :
    request.reserve.Calls FsCall.Silent := by
  cases request with
  | create req fields =>
      refine Prog.Calls.bind (calls_call trivial) fun _ => ?_
      refine Prog.Calls.bind (calls_call trivial) fun empty => ?_
      cases empty with
      | true => exact Prog.Calls.bind (calls_call trivial) fun _ => trivial
      | false =>
          refine Prog.Calls.bind (calls_call trivial) fun newInodeBlock => ?_
          refine Prog.Calls.bind (calls_call trivial) fun _ => ?_
          exact Prog.Calls.bind (calls_call trivial) fun _ => trivial
  | readblock req fields => trivial
  | writeblock req fields data => trivial
  | delete fields => trivial

theorem call_bind_ne_close
    {op : FsCall} (hop : op ≠ .close) (next : fsInterface.Answer op → FsProg Unit) :
    (call op >>= next) ≠ call .close := by
  intro h
  have hcall : (Prog.call op next : FsProg Unit) =
      @Prog.call fsInterface Unit FsCall.close .ret := h
  cases hcall
  exact hop rfl

theorem traverseDir_bind_ne_close
    {username : Name} {path : Path} {next : TargetInode → FsProg Unit}
    (hnext : ∀ target, target.valid = true → next target ≠ call .close) :
    (traverseDir username path >>= next) ≠ call .close := by
  unfold traverseDir
  dsimp only
  split
  · exact hnext _ rfl
  · rw [bind_assoc]
    exact call_bind_ne_close (by simp) _

/-- Going on to `traverse_dir` is not the same as closing the connection. -/
theorem resolving_ne_close (stack : Stack) (path : Path) (request : Request) :
    request.resolving stack path ≠ call .close := by
  cases request with
  | create req fields =>
      simp only [Request.resolving, Request.reserve, bind_assoc]
      exact call_bind_ne_close (by simp) _
  | readblock req fields =>
      refine traverseDir_bind_ne_close fun target hvalid => ?_
      simp only [Request.resolved, hvalid]
      exact call_bind_ne_close (by simp) _
  | writeblock req fields data =>
      refine traverseDir_bind_ne_close fun target hvalid => ?_
      simp only [Request.resolved, hvalid]
      exact call_bind_ne_close (by simp) _
  | delete fields =>
      refine traverseDir_bind_ne_close fun target hvalid => ?_
      simp only [Request.resolved, hvalid]
      exact call_bind_ne_close (by simp) _

theorem calls_serve (stack : Stack) (request : Request) :
    (serve stack request).Calls (FsCall.Responds request.Response) := by
  rw [serve_eq]
  cases request.traversed with
  | none => exact calls_call trivial
  | some path =>
      refine Prog.Calls.bind
        ((calls_reserve request).mono fun _ => FsCall.responds_of_silent) fun reserved => ?_
      cases reserved with
      | none => exact calls_call trivial
      | some newInodeBlock =>
          refine Prog.Calls.bind
            ((calls_traverseDir _ _).mono fun _ => FsCall.responds_of_reads)
            fun target => ?_
          exact Prog.Calls.bind (calls_resolved _ _ _ _) fun _ => calls_call trivial

/-! ## What follows a response -/

/-- Every response is followed by the `close`. -/
abbrev Answering (program : FsProg Unit) : Prop :=
  Prog.FollowedBy FsCall.Answers (call .close) program

theorem answering_close : Answering (call .close) :=
  ⟨fun hop => hop.elim, fun _ => trivial⟩

theorem answering_sendResponse (message : List Byte) :
    Answering (call (.sendResponse message) >>= fun _ => call .close) :=
  ⟨fun _ _ => rfl, fun _ => answering_close⟩

theorem Answering.after_silent
    {α : Type} {program : FsProg α} {f : α → FsProg Unit}
    (hcalls : program.Calls FsCall.Silent) (hf : ∀ value, Answering (f value)) :
    Answering (program >>= f) :=
  .after (hcalls.mono fun _ => FsCall.not_answers_of_silent) hf

theorem answering_resolved
    (stack : Stack) (newInodeBlock : BlockNo) (target : TargetInode) (request : Request) :
    Answering (request.resolved stack newInodeBlock target >>= fun _ => call .close) := by
  have hunlock : ∀ b, (call (.unlockShared b)).Calls FsCall.Silent := fun b => calls_call trivial
  have hrespond : ∀ b : Bool, Answering
      ((if b then call (.sendResponse (responseHeader request.words)) else return) >>=
        fun _ => call .close) := by
    intro b
    cases b with
    | false => exact answering_close
    | true => exact answering_sendResponse _
  unfold Request.resolved
  cases request with
  | readblock req fields =>
      dsimp only
      split
      case isTrue => exact .after_silent (hunlock _) fun _ => answering_close
      case isFalse =>
          simp only [bind_assoc]
          apply Answering.after_silent (by exact calls_call trivial)
          intro _
          apply Answering.after_silent (silent_of_reads (calls_readLocked _ _ _))
          intro data
          apply Answering.after_silent (by exact calls_call trivial)
          intro _
          cases data with
          | none => exact answering_close
          | some data => exact answering_sendResponse _
  | writeblock req fields data =>
      dsimp only
      split
      case isTrue => exact .after_silent (hunlock _) fun _ => answering_close
      case isFalse =>
          simp only [bind_assoc]
          apply Answering.after_silent (by exact calls_call trivial)
          intro _
          apply Answering.after_silent (calls_writeLocked _ _ _ _)
          intro written
          apply Answering.after_silent (by exact calls_call trivial)
          intro _
          exact hrespond written
  | create req fields =>
      dsimp only
      split
      case isTrue =>
          simp only [bind_assoc]
          apply Answering.after_silent (hunlock _)
          intro _
          exact .after_silent (silent_of_queues (calls_returnEmptyBlock _))
            fun _ => answering_close
      case isFalse =>
          simp only [bind_assoc]
          apply Answering.after_silent (by exact calls_call trivial)
          intro _
          apply Answering.after_silent (calls_createLocked _ _ _ _ _ _)
          intro created
          apply Answering.after_silent (by exact calls_call trivial)
          intro _
          exact hrespond created
  | delete fields =>
      dsimp only
      split
      case isTrue => exact .after_silent (hunlock _) fun _ => answering_close
      case isFalse =>
          simp only [bind_assoc]
          apply Answering.after_silent (by exact calls_call trivial)
          intro _
          apply Answering.after_silent (calls_deleteLocked _ _ _ _)
          intro deleted
          apply Answering.after_silent (by exact calls_call trivial)
          intro _
          cases deleted with
          | none => exact answering_close
          | some found =>
              simp only [bind_assoc]
              apply Answering.after_silent (by exact calls_call trivial)
              intro _
              apply Answering.after_silent (calls_pushBlocks _)
              intro _
              apply Answering.after_silent (by exact calls_call trivial)
              intro _
              apply Answering.after_silent (by exact calls_call trivial)
              intro _
              exact answering_sendResponse _

/-- A handler does nothing after its response. -/
theorem answering_serve (stack : Stack) (request : Request) :
    Answering (serve stack request) := by
  rw [serve_eq]
  split
  · exact answering_close
  · unfold Request.resolving
    apply Answering.after_silent (calls_reserve request)
    intro reserved
    cases reserved with
    | none => exact answering_close
    | some newInodeBlock =>
        apply Answering.after_silent (silent_of_reads (calls_traverseDir _ _))
        intro target
        exact answering_resolved _ _ _ _

end FileServer
end Eecs482
