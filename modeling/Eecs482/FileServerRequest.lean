import Eecs482.FileServerTree

/-!
# Request fields

The string handling in front of the handlers: extracting words from the
request stream, splitting a pathname at its slashes, and reading a block
number.  A parsed request is an operation on the path tree.
-/

namespace Eecs482
namespace FileServer

/-- The character `'/'`. -/
abbrev slash : Byte := 47

/-- `isspace` in the C locale. -/
def isSpace (c : Byte) : Bool :=
  c = 32 ∨ (9 ≤ c ∧ c ≤ 13)

/-- `stream >> word`: skip white space, then take the next word; fails at the
end of the stream. -/
def extractWord (stream : List Byte) : Option (Name × List Byte) :=
  let rest := stream.dropWhile isSpace
  if rest = [] then none
  else some (rest.takeWhile fun c => !isSpace c,
    rest.dropWhile fun c => !isSpace c)

/-- The strings which successive calls of `getline(stream, tmp, '/')` deliver
until one fails; `tmp` is what the current call has read so far.  A call fails
when it extracts nothing, so a final slash does not start another string. -/
def getlines : Name → List Byte → List Name
  | tmp, [] => if tmp = [] then [] else [tmp]
  | tmp, c :: rest =>
      if c = slash then tmp :: getlines [] rest else getlines (tmp ++ [c]) rest

/-- The loop of `path_parser` over the strings it gets. -/
def pathParserLoop : List Name → Option Path
  | [] => some []
  | tmp :: rest =>
      if tmp.length > fsMaxFileName ∨ tmp.length = 0 then none
      else (pathParserLoop rest).map (tmp :: ·)

/-- `path_parser`; `none` is a return of `false`. -/
def pathParser (pathname : Name) : Option Path :=
  if pathname.head? ≠ some slash ∨ pathname.getLast? = some slash then none
  else pathParserLoop (getlines [] pathname).tail

def isDigit (c : Byte) : Bool :=
  48 ≤ c ∧ c ≤ 57

def isBlock (str : Name) : Bool :=
  str.length ≤ 3 ∧ str.all isDigit

/-- `stoi` of a string of digits. -/
def stoi (str : Name) : ℕ :=
  str.foldl (fun value c => 10 * value + (c.toNat - 48)) 0

/-- The words `handle_requests` hands to a handler.  They are words of a
header without NUL bytes and have passed its length test. -/
structure RequestFields where
  username : Name
  pathname : Name
  username_ne_nil : username ≠ []
  username_length : username.length ≤ fsMaxUserName
  username_noNul : (0 : Byte) ∉ username
  pathname_ne_nil : pathname ≠ []
  pathname_length : pathname.length ≤ fsMaxPathName
  pathname_noNul : (0 : Byte) ∉ pathname

/-- What `check_request_type` selects, with the rest of the header and, for a
write, the bytes of the block that follow it. -/
inductive Request
  | readblock (req : List Byte) (fields : RequestFields)
  | writeblock (req : List Byte) (fields : RequestFields) (data : Block)
  | create (req : List Byte) (fields : RequestFields)
  | delete (fields : RequestFields)

def Request.fields : Request → RequestFields
  | .readblock _ fields | .writeblock _ fields _ | .create _ fields
  | .delete fields => fields

/-- The type word of a create request. -/
def createType (req : List Byte) : Option Byte :=
  match extractWord req with
  | some ([type], _) =>
      if type = fileType ∨ type = dirType then some type else none
  | _ => none

/-- The block number of a read or write request. -/
def blockIndex (req : List Byte) : Option ℕ :=
  match extractWord req with
  | some (blockStr, _) =>
      if isBlock blockStr ∧ stoi blockStr < fsMaxFileBlocks then
        some (stoi blockStr)
      else none
  | none => none

/-- The operation a request asks for, if its fields can be parsed. -/
def Request.op (request : Request) : Option FsOp :=
  match request with
  | .readblock req fields => do
      let index ← blockIndex req
      let path ← pathParser fields.pathname
      some (.readBlock fields.username path index)
  | .writeblock req fields data => do
      let index ← blockIndex req
      let path ← pathParser fields.pathname
      some (.writeBlock fields.username path index data)
  | .create req fields => do
      let type ← createType req
      let path ← pathParser fields.pathname
      some (.create fields.username path type)
  | .delete fields => do
      let path ← pathParser fields.pathname
      some (.delete fields.username path)

/-! ## What the path parser accepts -/

theorem pathParserLoop_eq_some
    {strings path : List Name} (h : pathParserLoop strings = some path) :
    path = strings ∧
      ∀ name ∈ strings, name.length ≤ fsMaxFileName ∧ name ≠ [] := by
  induction strings generalizing path with
  | nil =>
      simp only [pathParserLoop, Option.some.injEq] at h
      exact ⟨h.symm, by simp⟩
  | cons tmp rest ih =>
      simp only [pathParserLoop] at h
      split at h
      · cases h
      · rename_i hvalid
        obtain ⟨tail, htail, rfl⟩ := Option.map_eq_some_iff.mp h
        obtain ⟨rfl, hall⟩ := ih htail
        simp only [gt_iff_lt, not_or, Nat.not_lt] at hvalid
        refine ⟨rfl, ?_⟩
        intro name hname
        rcases List.mem_cons.mp hname with rfl | hname
        · exact ⟨hvalid.1, fun h => hvalid.2 (by simp [h])⟩
        · exact hall name hname

theorem mem_getlines
    {tmp name : Name} {stream : List Byte} (h : name ∈ getlines tmp stream)
    {c : Byte} (hc : c ∈ name) :
    c ∈ tmp ∨ c ∈ stream := by
  induction stream generalizing tmp with
  | nil =>
      simp only [getlines] at h
      split at h
      · simp at h
      · left
        simpa [List.mem_singleton.mp h] using hc
  | cons d rest ih =>
      simp only [getlines] at h
      split at h
      · rcases List.mem_cons.mp h with rfl | h
        · exact Or.inl hc
        · rcases ih h with htmp | hrest
          · simp at htmp
          · exact Or.inr (List.mem_cons_of_mem d hrest)
      · rcases ih h with htmp | hrest
        · rcases List.mem_append.mp htmp with htmp | hd
          · exact Or.inl htmp
          · exact Or.inr (by simp_all)
        · exact Or.inr (List.mem_cons_of_mem d hrest)

theorem getlines_ne_nil
    {tmp : Name} {stream : List Byte} (h : tmp ≠ [] ∨ stream ≠ []) :
    getlines tmp stream ≠ [] := by
  induction stream generalizing tmp with
  | nil =>
      simp only [ne_eq, not_true_eq_false, or_false] at h
      simp [getlines, h]
  | cons c rest ih =>
      simp only [getlines]
      split
      · simp
      · exact ih (by simp)

/-- The components of an accepted pathname fit into a direntry. -/
theorem pathParser_components
    {pathname : Name} {path : Path} (h : pathParser pathname = some path)
    (hnul : (0 : Byte) ∉ pathname) {name : Name} (hname : name ∈ path) :
    name.length ≤ fsMaxFileName ∧ name ≠ [] ∧ (0 : Byte) ∉ name := by
  unfold pathParser at h
  split at h
  · cases h
  · obtain ⟨rfl, hall⟩ := pathParserLoop_eq_some h
    refine ⟨(hall name hname).1, (hall name hname).2, fun hzero => hnul ?_⟩
    rcases mem_getlines (List.mem_of_mem_tail hname) hzero with htmp | hmem
    · simp at htmp
    · exact hmem

/-- `path_names[path_names.size() - 1]` exists whenever the parser accepts. -/
theorem pathParser_ne_nil
    {pathname : Name} {path : Path} (h : pathParser pathname = some path) :
    path ≠ [] := by
  unfold pathParser at h
  split at h
  · cases h
  · rename_i hends
    simp only [not_or, ne_eq, not_not] at hends
    obtain ⟨rfl, _⟩ := pathParserLoop_eq_some h
    cases pathname with
    | nil => simp at hends
    | cons first rest =>
        have hfirst : first = slash := by simpa using hends.1
        have hrest : rest ≠ [] := by
          rintro rfl
          exact hends.2 (by simp [hfirst])
        simp only [getlines, hfirst, if_true, List.tail_cons]
        exact getlines_ne_nil (Or.inr hrest)

end FileServer
end Eecs482
