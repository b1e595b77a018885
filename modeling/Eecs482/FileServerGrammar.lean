import Eecs482.FileServerParser

/-!
# The request grammar

The request lines of the protocol, and which of the headers the server accepts
are such lines.  The parser splits a header at any white space and counts only
the spaces, so it takes some headers with other white space for request lines.
-/

namespace Eecs482
namespace FileServer

/-! ## Pathnames -/

/-- `pathname` is the absolute path with the components `path`. -/
structure IsPathname (pathname : Name) (path : Path) : Prop where
  ne_nil : path ≠ []
  names : ∀ name ∈ path,
    name ≠ [] ∧ name.length ≤ fsMaxFileName ∧ slash ∉ name
  eq_intercalate : pathname = slash :: [slash].intercalate path

theorem getlines_append_slash
    {name : Name} (hname : slash ∉ name) (tmp : Name) (rest : List Byte) :
    getlines tmp (name ++ slash :: rest) = (tmp ++ name) :: getlines [] rest := by
  induction name generalizing tmp with
  | nil => simp [getlines]
  | cons c name ih =>
      simp only [List.mem_cons, not_or] at hname
      rw [List.cons_append, getlines, if_neg (Ne.symm hname.1), ih hname.2]
      simp

theorem getlines_of_not_mem
    {name : Name} (hname : slash ∉ name) (tmp : Name) (hne : tmp ++ name ≠ []) :
    getlines tmp name = [tmp ++ name] := by
  induction name generalizing tmp with
  | nil => simpa [getlines] using hne
  | cons c name ih =>
      simp only [List.mem_cons, not_or] at hname
      rw [getlines, if_neg (Ne.symm hname.1), ih hname.2 (tmp ++ [c]) (by simp)]
      simp

theorem getlines_intercalate
    {path : Path} (hne : path ≠ [])
    (hnames : ∀ name ∈ path, name ≠ [] ∧ slash ∉ name) :
    getlines [] ([slash].intercalate path) = path := by
  induction path with
  | nil => exact absurd rfl hne
  | cons name rest ih =>
      obtain ⟨hname, hslash⟩ := hnames name (by simp)
      cases rest with
      | nil => simpa using getlines_of_not_mem hslash [] (by simpa using hname)
      | cons next rest =>
          rw [List.intercalate_cons_cons, List.append_assoc, List.singleton_append,
            getlines_append_slash hslash, List.nil_append,
            ih (by simp) fun n hn => hnames n (List.mem_cons_of_mem _ hn)]

theorem not_mem_of_mem_getlines
    {tmp name : Name} {stream : List Byte} (htmp : slash ∉ tmp)
    (hname : name ∈ getlines tmp stream) : slash ∉ name := by
  induction stream generalizing tmp with
  | nil =>
      simp only [getlines] at hname
      split at hname
      · simp at hname
      · rwa [List.mem_singleton.mp hname]
  | cons c rest ih =>
      simp only [getlines] at hname
      split at hname
      · rcases List.mem_cons.mp hname with rfl | hname
        · exact htmp
        · exact ih (by simp) hname
      · rename_i hc
        exact ih (by simp [htmp, Ne.symm hc]) hname

/-- The strings up to each slash, printed with slashes, are the stream again. -/
theorem intercalate_getlines
    {tmp : Name} {stream : List Byte}
    (hend : (tmp ++ stream).getLast? ≠ some slash) (htmp : slash ∉ tmp) :
    [slash].intercalate (getlines tmp stream) = tmp ++ stream := by
  induction stream generalizing tmp with
  | nil =>
      simp only [getlines]
      split
      · rename_i hnil
        simp [hnil]
      · simp
  | cons c rest ih =>
      simp only [getlines]
      split
      · rename_i hc
        subst hc
        have hrest : rest ≠ [] := by
          rintro rfl
          simp at hend
        have hlast : ([] ++ rest).getLast? ≠ some slash := by
          rwa [← List.singleton_append, ← List.append_assoc,
            List.getLast?_append_of_ne_nil _ hrest] at hend
        rw [List.intercalate_cons_of_ne_nil (getlines_ne_nil (Or.inr hrest)),
          ih hlast (by simp)]
        simp
      · rename_i hc
        rw [ih (by simpa using hend) (by simp [htmp, Ne.symm hc])]
        simp

theorem getLast?_intercalate
    {path : Path} (hne : path ≠ [])
    (hnames : ∀ name ∈ path, name ≠ [] ∧ slash ∉ name) :
    [slash].intercalate path ≠ [] ∧
      ([slash].intercalate path).getLast? ≠ some slash := by
  induction path with
  | nil => exact absurd rfl hne
  | cons name rest ih =>
      obtain ⟨hname, hslash⟩ := hnames name (by simp)
      cases rest with
      | nil =>
          rw [List.intercalate_singleton]
          exact ⟨hname, fun hlast => hslash (List.mem_of_getLast? hlast)⟩
      | cons next rest =>
          obtain ⟨htail, hlast⟩ :=
            ih (by simp) fun n hn => hnames n (List.mem_cons_of_mem _ hn)
          rw [List.intercalate_cons_cons]
          refine ⟨by simp, ?_⟩
          rwa [List.getLast?_append_of_ne_nil _ htail]

theorem pathParserLoop_of_names
    {path : Path} (hnames : ∀ name ∈ path, name.length ≤ fsMaxFileName ∧ name ≠ []) :
    pathParserLoop path = some path := by
  induction path with
  | nil => rfl
  | cons name rest ih =>
      obtain ⟨hlength, hne⟩ := hnames name (by simp)
      have hvalid : ¬(name.length > fsMaxFileName ∨ name.length = 0) := by
        rintro (hlong | hzero)
        · omega
        · exact hne (List.length_eq_zero_iff.mp hzero)
      rw [pathParserLoop, if_neg hvalid,
        ih fun n hn => hnames n (List.mem_cons_of_mem _ hn)]
      rfl

/-- `path_parser` accepts the absolute pathnames and returns their components. -/
theorem pathParser_eq_some_iff {pathname : Name} {path : Path} :
    pathParser pathname = some path ↔ IsPathname pathname path := by
  constructor
  · intro h
    have hne := pathParser_ne_nil h
    unfold pathParser at h
    split at h
    · cases h
    · rename_i hends
      simp only [not_or, ne_eq, not_not] at hends
      obtain ⟨hfirst, hlast⟩ := hends
      obtain ⟨rest, rfl⟩ : ∃ rest, pathname = slash :: rest := by
        cases pathname with
        | nil => simp at hfirst
        | cons c rest => exact ⟨rest, by simpa using hfirst⟩
      obtain ⟨hpath, hall⟩ := pathParserLoop_eq_some h
      simp only [getlines, if_true, List.tail_cons] at hpath hall
      subst hpath
      have hrest : rest ≠ [] := by
        rintro rfl
        exact hlast rfl
      refine ⟨hne, fun name hname => ?_, ?_⟩
      · exact ⟨(hall name hname).2, (hall name hname).1,
          not_mem_of_mem_getlines (by simp) hname⟩
      · rw [intercalate_getlines ?_ (by simp), List.nil_append]
        rwa [← List.singleton_append, List.getLast?_append_of_ne_nil _ hrest] at hlast
  · rintro ⟨hne, hnames, rfl⟩
    have hparts : ∀ name ∈ path, name ≠ [] ∧ slash ∉ name := fun name hname =>
      ⟨(hnames name hname).1, (hnames name hname).2.2⟩
    obtain ⟨htail, hlast⟩ := getLast?_intercalate hne hparts
    have hends : ¬((slash :: [slash].intercalate path).head? ≠ some slash ∨
        (slash :: [slash].intercalate path).getLast? = some slash) := by
      rw [← List.singleton_append, List.getLast?_append_of_ne_nil _ htail]
      simpa using hlast
    rw [pathParser, if_neg hends, getlines, if_pos rfl, List.tail_cons,
      getlines_intercalate hne hparts]
    exact pathParserLoop_of_names fun name hname =>
      ⟨(hnames name hname).2.1, (hnames name hname).1⟩

/-- A name of 1 to `FS_MAXFILENAME` characters without a slash. -/
def IsName (name : Name) : Prop :=
  name ≠ [] ∧ name.length ≤ fsMaxFileName ∧ slash ∉ name

/-- A slash followed by a name. -/
def IsComponent (component : Name) : Prop :=
  ∃ name, IsName name ∧ component = slash :: name

/-- The names with a slash in front of each. -/
def joinPath (path : Path) : Name :=
  path.flatMap fun name => slash :: name

theorem joinPath_eq_intercalate {path : Path} (hne : path ≠ []) :
    joinPath path = slash :: [slash].intercalate path := by
  induction path with
  | nil => exact absurd rfl hne
  | cons name rest ih =>
      cases rest with
      | nil => simp [joinPath]
      | cons next rest =>
          have hcons : joinPath (name :: next :: rest) =
              (slash :: name) ++ joinPath (next :: rest) := rfl
          rw [hcons, ih (by simp), List.intercalate_cons_cons]
          simp

theorem pathParser_eq_some_iff_join {pathname : Name} {path : Path} :
    pathParser pathname = some path ↔
      path ≠ [] ∧ (∀ name ∈ path, IsName name) ∧ joinPath path = pathname := by
  rw [pathParser_eq_some_iff]
  constructor
  · rintro ⟨hne, hnames, heq⟩
    refine ⟨hne, hnames, ?_⟩
    rw [joinPath_eq_intercalate hne, heq]
  · rintro ⟨hne, hnames, heq⟩
    refine ⟨hne, hnames, ?_⟩
    rw [← heq, joinPath_eq_intercalate hne]

theorem exists_names_of_components
    {components : List Name} (hall : ∀ component ∈ components, IsComponent component) :
    ∃ path : Path, (∀ name ∈ path, IsName name) ∧
      components = path.map fun name => slash :: name := by
  induction components with
  | nil => exact ⟨[], by simp, rfl⟩
  | cons component rest ih =>
      obtain ⟨name, hname, rfl⟩ := hall component (by simp)
      obtain ⟨path, hnames, rfl⟩ :=
        ih fun c hc => hall c (List.mem_cons_of_mem _ hc)
      refine ⟨name :: path, ?_, rfl⟩
      intro n hn
      rcases List.mem_cons.mp hn with rfl | hn
      · exact hname
      · exact hnames n hn

theorem isComponent_of_mem_map
    {path : Path} {component : Name} (hnames : ∀ name ∈ path, IsName name)
    (hmem : component ∈ path.map fun name => slash :: name) :
    IsComponent component := by
  obtain ⟨name, hname, rfl⟩ := List.mem_map.mp hmem
  exact ⟨name, hnames name hname, rfl⟩

/-- `path_parser` accepts the concatenations of components, returns the names in
them, and loses nothing. -/
theorem pathParser_exact (s : Name) :
    ((pathParser s).isSome ↔
      ∃ components : List Name, components ≠ [] ∧
        (∀ component ∈ components, IsComponent component) ∧
        components.flatten = s) ∧
    (∀ pathNames, pathParser s = some pathNames →
      pathNames ≠ [] ∧
      (∀ component ∈ pathNames.map fun name => slash :: name, IsComponent component) ∧
      (pathNames.map fun name => slash :: name).flatten = s ∧
      joinPath pathNames = s) ∧
    ∀ names : Path, names ≠ [] → (∀ name ∈ names, IsName name) →
      pathParser (joinPath names) = some names := by
  have hflatten : ∀ path : Path,
      (path.map fun name => slash :: name).flatten = joinPath path :=
    fun path => List.flatMap_def.symm
  refine ⟨⟨fun haccepted => ?_, ?_⟩, fun pathNames hparse => ?_, ?_⟩
  · obtain ⟨path, hparse⟩ := Option.isSome_iff_exists.mp haccepted
    obtain ⟨hne, hnames, hjoin⟩ := pathParser_eq_some_iff_join.mp hparse
    refine ⟨path.map fun name => slash :: name, by simpa using hne, ?_, ?_⟩
    · exact fun component => isComponent_of_mem_map hnames
    · rw [hflatten, hjoin]
  · rintro ⟨components, hne, hall, hjoin⟩
    obtain ⟨path, hnames, rfl⟩ := exists_names_of_components hall
    have hpath : path ≠ [] := fun hnil => hne (by simp [hnil])
    rw [hflatten] at hjoin
    rw [pathParser_eq_some_iff_join.mpr ⟨hpath, hnames, hjoin⟩]
    rfl
  · obtain ⟨hne, hnames, hjoin⟩ := pathParser_eq_some_iff_join.mp hparse
    refine ⟨hne, fun component => isComponent_of_mem_map hnames, ?_, hjoin⟩
    rw [hflatten, hjoin]
  · intro names hne hnames
    exact pathParser_eq_some_iff_join.mpr ⟨hne, hnames, rfl⟩

/-- The path `/a/b`. -/
theorem pathParser_exact_ab :
    pathParser [47, 97, 47, 98] = some [[97], [98]] ∧
      joinPath [[97], [98]] = [47, 97, 47, 98] := by
  have hparse : pathParser [47, 97, 47, 98] = some [[97], [98]] := by decide
  obtain ⟨_, hloses, _⟩ := pathParser_exact [47, 97, 47, 98]
  exact ⟨hparse, (hloses _ hparse).2.2.2⟩

/-- A lone slash, a doubled and a trailing one, and a missing one. -/
example : [[47], [47, 97, 47, 47, 98], [47, 97, 47], [97]].map pathParser =
    List.replicate 4 none := by decide

/-! ## Request lines -/

/-- A block number of one to three digits. -/
structure BlockNumber where
  digits : Name
  ne_nil : digits ≠ []
  length_le : digits.length ≤ 3
  all_digits : ∀ c ∈ digits, isDigit c = true
  lt_max : stoi digits < fsMaxFileBlocks

inductive FileKind
  | file
  | directory

def FileKind.type : FileKind → Byte
  | .file => fileType
  | .directory => dirType

inductive Command
  | readblock (block : BlockNumber)
  | writeblock (block : BlockNumber)
  | create (kind : FileKind)
  | delete

def Command.word : Command → Name
  | .readblock _ => readblockWord
  | .writeblock _ => writeblockWord
  | .create _ => createWord
  | .delete => deleteWord

def Command.arguments : Command → List Name
  | .readblock block | .writeblock block => [block.digits]
  | .create kind => [[kind.type]]
  | .delete => []

/-- A request of the protocol. -/
structure RequestLine where
  command : Command
  username : Name
  username_ne_nil : username ≠ []
  username_length : username.length ≤ fsMaxUserName
  username_plain : ∀ c ∈ username, isSpace c = false ∧ c ≠ 0
  pathname : Name
  path : Path
  isPathname : IsPathname pathname path
  pathname_length : pathname.length ≤ fsMaxPathName
  pathname_plain : ∀ c ∈ pathname, isSpace c = false ∧ c ≠ 0

namespace RequestLine

variable {line : RequestLine}

def words (line : RequestLine) : List Name :=
  line.command.word :: line.username :: line.pathname :: line.command.arguments

/-- The header of the request: its words with single spaces between them. -/
def text (line : RequestLine) : List Byte :=
  [space].intercalate line.words

theorem words_ne_nil : line.words ≠ [] := by
  simp [words]

theorem digit_plain {c : Byte} (hc : isDigit c = true) :
    isSpace c = false ∧ c ≠ 0 := by
  simp only [isDigit, decide_eq_true_eq, UInt8.le_iff_toNat_le] at hc
  have hlow : 48 ≤ c.toNat := hc.1
  simp only [isSpace, decide_eq_false_iff_not, not_or, not_and, ne_eq,
    ← UInt8.toNat_inj, UInt8.le_iff_toNat_le]
  refine ⟨⟨?_, fun _ => ?_⟩, ?_⟩
  · change c.toNat ≠ 32
    omega
  · change ¬c.toNat ≤ 13
    omega
  · change c.toNat ≠ 0
    omega

theorem arguments_plain
    {command : Command} {word : Name} (hword : word ∈ command.arguments) :
    word ≠ [] ∧ ∀ c ∈ word, isSpace c = false ∧ c ≠ 0 := by
  cases command with
  | readblock block =>
      obtain rfl := List.mem_singleton.mp hword
      exact ⟨block.ne_nil, fun c hc => digit_plain (block.all_digits c hc)⟩
  | writeblock block =>
      obtain rfl := List.mem_singleton.mp hword
      exact ⟨block.ne_nil, fun c hc => digit_plain (block.all_digits c hc)⟩
  | create kind =>
      obtain rfl := List.mem_singleton.mp hword
      cases kind <;> decide +kernel
  | delete => simp [Command.arguments] at hword

theorem word_plain (command : Command) :
    command.word ≠ [] ∧ ∀ c ∈ command.word, isSpace c = false ∧ c ≠ 0 := by
  cases command <;> simp only [Command.word] <;> decide +kernel

theorem plain_of_mem_words {word : Name} (hword : word ∈ line.words) :
    word ≠ [] ∧ ∀ c ∈ word, isSpace c = false ∧ c ≠ 0 := by
  simp only [words, List.mem_cons] at hword
  rcases hword with rfl | rfl | rfl | hword
  · exact word_plain line.command
  · exact ⟨line.username_ne_nil, line.username_plain⟩
  · refine ⟨?_, line.pathname_plain⟩
    rw [line.isPathname.eq_intercalate]
    simp
  · exact arguments_plain hword

theorem notSpace_of_mem_words {word : Name} (hword : word ∈ line.words) :
    ∀ c ∈ word, isSpace c = false := fun c hc =>
  ((plain_of_mem_words hword).2 c hc).1

theorem words_text : Eecs482.words isSpace line.text = line.words :=
  Words.words_intercalate rfl (fun _ hword => (plain_of_mem_words hword).1)
    fun _ hword => notSpace_of_mem_words hword

theorem count_text : line.text.countP isSpace + 1 = line.words.length :=
  Words.countP_intercalate rfl words_ne_nil fun _ hword =>
    notSpace_of_mem_words hword

theorem isSpace_of_mem_text
    {c : Byte} (hc : c ∈ line.text) (hspace : isSpace c = true) : c = space := by
  rcases Words.mem_intercalate hc with hsep | ⟨word, hword, hmem⟩
  · exact hsep
  · simp [notSpace_of_mem_words hword c hmem] at hspace

theorem noNul_text : (0 : Byte) ∉ line.text := by
  intro hzero
  rcases Words.mem_intercalate hzero with hsep | ⟨word, hword, hmem⟩
  · exact absurd hsep (by decide)
  · exact ((plain_of_mem_words hword).2 0 hmem).2 rfl

/-- Every request line fits into a header. -/
theorem length_text : line.text.length ≤ maxHeaderLen := by
  have husername := line.username_length
  have hpathname := line.pathname_length
  cases hcommand : line.command with
  | readblock block =>
      have hblock := block.length_le
      simp [text, words, hcommand, Command.word, Command.arguments, readblockWord,
        List.intercalate_cons_cons]
      omega
  | writeblock block =>
      have hblock := block.length_le
      simp [text, words, hcommand, Command.word, Command.arguments, writeblockWord,
        List.intercalate_cons_cons]
      omega
  | create kind =>
      simp [text, words, hcommand, Command.word, Command.arguments, createWord,
        List.intercalate_cons_cons]
      omega
  | delete =>
      simp [text, words, hcommand, Command.word, Command.arguments, deleteWord,
        List.intercalate_cons_cons]
      omega

end RequestLine

/-! ## What the server accepts -/

variable {reqHeader : Header} {data : Block} {request : Request}

theorem dispatch_checkRequestType
    {requestType : Name} {bytes req : List Byte} {fields : RequestFields}
    (h : dispatch (checkRequestType requestType bytes) req fields data =
      some request) :
    (requestType = readblockWord ∧ bytes.count space = 3 ∧
      request = .readblock req fields) ∨
    (requestType = writeblockWord ∧ bytes.count space = 3 ∧
      request = .writeblock req fields data) ∨
    (requestType = createWord ∧ bytes.count space = 3 ∧
      request = .create req fields) ∨
    (requestType = deleteWord ∧ bytes.count space = 2 ∧
      request = .delete fields) := by
  simp only [checkRequestType, findSpace_eq, Nat.zero_add] at h
  split_ifs at h with h1 h2 h3 h4 h5 h6 h7 h8
  all_goals simp only [dispatch, Option.some.injEq, reduceCtorEq] at h
  all_goals simp_all

theorem blockIndex_eq_some_iff {req : List Byte} {index : ℕ} :
    blockIndex req = some index ↔ ∃ block : BlockNumber, ∃ rest,
      words isSpace req = block.digits :: rest ∧ stoi block.digits = index := by
  unfold blockIndex
  constructor
  · intro h
    split at h
    · rename_i digits rest hextract
      split at h
      · rename_i hvalid
        obtain ⟨hblock, hmax⟩ := hvalid
        simp only [isBlock, decide_eq_true_eq, List.all_eq_true] at hblock
        exact ⟨⟨digits, (extractWord_spec hextract).1, hblock.1, hblock.2, hmax⟩,
          words isSpace rest, words_of_extractWord hextract, by simpa using h⟩
      · cases h
    · cases h
  · rintro ⟨block, rest, hwords, rfl⟩
    obtain ⟨tail, hextract, _⟩ := exists_extractWord hwords
    have hblock : isBlock block.digits = true := by
      simpa [isBlock] using ⟨block.length_le, block.all_digits⟩
    simp [hextract, hblock, block.lt_max]

theorem createType_eq_some_iff {req : List Byte} {type : Byte} :
    createType req = some type ↔ ∃ kind : FileKind, ∃ rest,
      words isSpace req = [kind.type] :: rest ∧ kind.type = type := by
  unfold createType
  constructor
  · intro h
    split at h
    · rename_i c rest hextract
      have hwords := words_of_extractWord hextract
      split at h
      · rename_i hc
        obtain rfl : c = type := by simpa using h
        rcases hc with rfl | rfl
        · exact ⟨.file, _, hwords, rfl⟩
        · exact ⟨.directory, _, hwords, rfl⟩
      · cases h
    · cases h
  · rintro ⟨kind, rest, hwords, rfl⟩
    obtain ⟨tail, hextract, _⟩ := exists_extractWord hwords
    rw [hextract]
    cases kind <;> rfl

/-- The request line with the words of a request. -/
def RequestFields.line
    (fields : RequestFields) (command : Command) {path : Path}
    (hpath : IsPathname fields.pathname path)
    (husername : ∀ c ∈ fields.username, isSpace c = false)
    (hpathname : ∀ c ∈ fields.pathname, isSpace c = false) : RequestLine where
  command := command
  username := fields.username
  username_ne_nil := fields.username_ne_nil
  username_length := fields.username_length
  username_plain := fun c hc =>
    ⟨husername c hc, fun hzero => fields.username_noNul (hzero ▸ hc)⟩
  pathname := fields.pathname
  path := path
  isPathname := hpath
  pathname_length := fields.pathname_length
  pathname_plain := fun c hc =>
    ⟨hpathname c hc, fun hzero => fields.pathname_noNul (hzero ▸ hc)⟩

/-- The words of the header begin with those of the request line, and it has as
many spaces as the line. -/
def Tolerates (bytes : List Byte) (line : RequestLine) : Prop :=
  line.words <+: words isSpace bytes ∧ bytes.count space + 1 = line.words.length

theorem tolerates_of_traversed
    {path : Path} (hselect : selectRequest reqHeader data = some request)
    (htraversed : request.traversed = some path) :
    ∃ line, line.words = request.words ∧ Tolerates reqHeader.bytes line := by
  obtain ⟨requestType, req, hwords, hdispatch⟩ := words_of_selectRequest hselect
  have husername : ∀ c ∈ request.fields.username, isSpace c = false :=
    Words.not_isBreak_of_mem_words
      (show request.fields.username ∈ words isSpace reqHeader.bytes by simp [hwords])
  have hpathname : ∀ c ∈ request.fields.pathname, isSpace c = false :=
    Words.not_isBreak_of_mem_words
      (show request.fields.pathname ∈ words isSpace reqHeader.bytes by simp [hwords])
  generalize request.fields = fields at hwords hdispatch husername hpathname
  rcases dispatch_checkRequestType hdispatch with
    ⟨rfl, hcount, rfl⟩ | ⟨rfl, hcount, rfl⟩ | ⟨rfl, hcount, rfl⟩ | ⟨rfl, hcount, rfl⟩
  · simp only [Request.traversed, Option.bind_eq_bind, Option.bind_eq_some_iff]
      at htraversed
    obtain ⟨_, hargument, hpath⟩ := htraversed
    obtain ⟨block, rest, hreq, _⟩ := blockIndex_eq_some_iff.mp hargument
    refine ⟨fields.line (.readblock block) (pathParser_eq_some_iff.mp hpath)
      husername hpathname, ?_, ?_, ?_⟩
    · rw [Request.words, argument_of_words hreq]
      rfl
    · rw [hwords, hreq]
      exact List.prefix_append [readblockWord, _, _, block.digits] rest
    · rw [hcount]
      rfl
  · simp only [Request.traversed, Option.bind_eq_bind, Option.bind_eq_some_iff]
      at htraversed
    obtain ⟨_, hargument, hpath⟩ := htraversed
    obtain ⟨block, rest, hreq, _⟩ := blockIndex_eq_some_iff.mp hargument
    refine ⟨fields.line (.writeblock block) (pathParser_eq_some_iff.mp hpath)
      husername hpathname, ?_, ?_, ?_⟩
    · rw [Request.words, argument_of_words hreq]
      rfl
    · rw [hwords, hreq]
      exact List.prefix_append [writeblockWord, _, _, block.digits] rest
    · rw [hcount]
      rfl
  · simp only [Request.traversed, Option.bind_eq_bind, Option.bind_eq_some_iff]
      at htraversed
    obtain ⟨_, hargument, path, hpath, _⟩ := htraversed
    obtain ⟨kind, rest, hreq, _⟩ := createType_eq_some_iff.mp hargument
    refine ⟨fields.line (.create kind) (pathParser_eq_some_iff.mp hpath)
      husername hpathname, ?_, ?_, ?_⟩
    · rw [Request.words, argument_of_words hreq]
      rfl
    · rw [hwords, hreq]
      exact List.prefix_append [createWord, _, _, [kind.type]] rest
    · rw [hcount]
      rfl
  · simp only [Request.traversed, Option.bind_eq_bind, Option.bind_eq_some_iff]
      at htraversed
    obtain ⟨path, hpath, _⟩ := htraversed
    refine ⟨fields.line .delete (pathParser_eq_some_iff.mp hpath)
      husername hpathname, ?_, ?_, ?_⟩
    · rfl
    · rw [hwords]
      exact List.prefix_append [deleteWord, _, _] _
    · rw [hcount]
      rfl

theorem checkRequestType_word
    {bytes : List Byte} {line : RequestLine} (htolerates : Tolerates bytes line) :
    checkRequestType line.command.word bytes =
      match line.command with
      | .readblock _ => 1
      | .writeblock _ => 2
      | .create _ => 3
      | .delete => 4 := by
  have hcount := htolerates.2
  rw [RequestLine.words] at hcount
  unfold checkRequestType
  rw [findSpace_eq]
  cases hcommand : line.command <;>
    simp [hcommand, Command.word, Command.arguments, readblockWord, writeblockWord, createWord,
      deleteWord] at hcount ⊢ <;> omega

theorem traversed_of_tolerates
    {line : RequestLine} (htolerates : Tolerates reqHeader.bytes line) (data : Block) :
    ∃ request path, selectRequest reqHeader data = some request ∧
      request.traversed = some path := by
  obtain ⟨rest, hwords⟩ := htolerates.1
  obtain ⟨fields, req, husername, hpathname, hreq, hselect⟩ :=
    exists_dispatch data hwords.symm line.username_length line.pathname_length
  rw [checkRequestType_word htolerates] at hselect
  have hpath : pathParser fields.pathname = some line.path := by
    rw [hpathname]
    exact pathParser_eq_some_iff.mpr line.isPathname
  cases hcommand : line.command with
  | readblock block =>
      rw [hcommand] at hselect hreq
      have hargument := blockIndex_eq_some_iff.mpr ⟨block, rest, hreq, rfl⟩
      exact ⟨_, line.path, hselect, by simp [Request.traversed, hargument, hpath]⟩
  | writeblock block =>
      rw [hcommand] at hselect hreq
      have hargument := blockIndex_eq_some_iff.mpr ⟨block, rest, hreq, rfl⟩
      exact ⟨_, line.path, hselect, by simp [Request.traversed, hargument, hpath]⟩
  | create kind =>
      rw [hcommand] at hselect hreq
      have hargument := createType_eq_some_iff.mpr ⟨kind, rest, hreq, rfl⟩
      exact ⟨_, line.path.dropLast, hselect,
        by simp [Request.traversed, hargument, hpath]⟩
  | delete =>
      rw [hcommand] at hselect
      exact ⟨_, line.path.dropLast, hselect, by simp [Request.traversed, hpath]⟩

/-! ## The server and the grammar -/

theorem recvHeader_append
    {received : Header} {rest : List Byte}
    (hbytes : received.bytes ++ rest = reqHeader.bytes) :
    recvHeader received (rest ++ [0]) = some reqHeader := by
  induction rest generalizing received with
  | nil =>
      obtain ⟨bytes, _, _⟩ := received
      obtain ⟨bytes', _, _⟩ := reqHeader
      obtain rfl : bytes = bytes' := by simpa using hbytes
      rfl
  | cons c rest ih =>
      have hmem : c ∈ reqHeader.bytes := by simp [← hbytes]
      have hc : ¬c = 0 := fun hzero => reqHeader.noNul (hzero ▸ hmem)
      have hlength : ¬received.bytes.length + 1 > maxHeaderLen := by
        have hle := reqHeader.length_le
        rw [← hbytes, List.length_append, List.length_cons] at hle
        omega
      rw [List.cons_append, recvHeader, dif_neg hc, dif_neg hlength]
      exact ih (by simpa using hbytes)

theorem handleRequests_eq (stack : Stack) (reqHeader : Header) (data : Block) :
    handleRequests stack (reqHeader.bytes ++ [0]) data =
      match selectRequest reqHeader data with
      | none => call .close
      | some request => serve stack request := by
  have hrecv : recvHeader ⟨[], by simp, by simp⟩ (reqHeader.bytes ++ [0]) =
      some reqHeader := recvHeader_append rfl
  rewrite [handleRequests, hrecv]
  rfl

/-- A header the server does not resolve a path for is answered by closing the
connection. -/
theorem handleRequests_of_refused
    (stack : Stack)
    (hrefused : ∀ request, selectRequest reqHeader data = some request →
      request.traversed = none) :
    handleRequests stack (reqHeader.bytes ++ [0]) data = call .close := by
  rw [handleRequests_eq]
  cases hselect : selectRequest reqHeader data with
  | none => rfl
  | some request =>
      change serve stack request = _
      rw [serve_eq, hrefused request hselect]

/-- The thread calls a handler, and the handler goes on to `traverse_dir`. -/
def GoesOn
    (stack : Stack) (data : Block) (reqHeader : Header) (request : Request) : Prop :=
  selectRequest reqHeader data = some request ∧ ∃ path,
    handleRequests stack (reqHeader.bytes ++ [0]) data = request.resolving stack path

theorem goesOn_iff_traversed {stack : Stack} :
    GoesOn stack data reqHeader request ↔
      selectRequest reqHeader data = some request ∧
        ∃ path, request.traversed = some path := by
  refine and_congr_right fun hselect => ?_
  have hserve : handleRequests stack (reqHeader.bytes ++ [0]) data =
      serve stack request := by
    rw [handleRequests_eq, hselect]
  rw [hserve, serve_eq]
  cases request.traversed with
  | none =>
      constructor
      · rintro ⟨path, hresolving⟩
        exact absurd hresolving.symm (resolving_ne_close stack path request)
      · rintro ⟨path, hpath⟩
        cases hpath
  | some path => exact ⟨fun _ => ⟨path, rfl⟩, fun _ => ⟨path, rfl⟩⟩

/-- The server takes the header exactly when it is a request line, with the
fields of the line, and repeats it in its responses. -/
structure ParsesExactly (stack : Stack) (data : Block) (reqHeader : Header) :
    Prop where
  goesOn_iff : (∃ request, GoesOn stack data reqHeader request) ↔
    ∃ line : RequestLine, reqHeader.bytes = line.text
  fields : ∀ request, GoesOn stack data reqHeader request →
    ∀ line : RequestLine, reqHeader.bytes = line.text → request.words = line.words
  echo : (handleRequests stack (reqHeader.bytes ++ [0]) data).Calls
    (FsCall.Responds fun message => ∃ content : List Byte,
      message = reqHeader.bytes ++ 0 :: content ∧
        (content = [] ∨ content.length = fsBlockSize))

theorem goesOn_of_tolerates
    {line : RequestLine} (stack : Stack) (data : Block)
    (htolerates : Tolerates reqHeader.bytes line) :
    ∃ request, GoesOn stack data reqHeader request := by
  obtain ⟨request, path, hselect, htraversed⟩ :=
    traversed_of_tolerates htolerates data
  exact ⟨request, goesOn_iff_traversed.mpr ⟨hselect, path, htraversed⟩⟩

theorem tolerates_of_goesOn
    {stack : Stack} (hgoesOn : GoesOn stack data reqHeader request) :
    ∃ line, line.words = request.words ∧ Tolerates reqHeader.bytes line := by
  obtain ⟨hselect, path, htraversed⟩ := goesOn_iff_traversed.mp hgoesOn
  exact tolerates_of_traversed hselect htraversed

/-- The only white space of the header is the space. -/
def OnlySpaces (bytes : List Byte) : Prop :=
  ∀ c ∈ bytes, isSpace c = true → c = space

theorem countP_isSpace {bytes : List Byte} (honly : OnlySpaces bytes) :
    bytes.countP isSpace = bytes.count space := by
  rw [List.count]
  apply List.countP_congr
  intro c hc
  constructor
  · intro hspace
    simp [honly c hc hspace]
  · intro hspace
    obtain rfl : c = space := by simpa using hspace
    rfl

/-- A tolerated header without other white space is the request line. -/
theorem eq_text_of_tolerates
    {bytes : List Byte} {line : RequestLine} (honly : OnlySpaces bytes)
    (htolerates : Tolerates bytes line) : bytes = line.text := by
  obtain ⟨hbegins, hcount⟩ := htolerates
  have hle : (words isSpace bytes).length ≤ bytes.countP isSpace + 1 :=
    Words.length_words_le bytes
  rw [countP_isSpace honly] at hle
  have hwords : line.words = words isSpace bytes :=
    hbegins.eq_of_length_le (by omega)
  have hprint : bytes = [space].intercalate (words isSpace bytes) :=
    Words.eq_intercalate_words rfl honly
      (by rw [countP_isSpace honly, ← hwords]; omega)
  rw [← hwords] at hprint
  exact hprint

theorem onlySpaces_text (line : RequestLine) : OnlySpaces line.text :=
  fun _ => RequestLine.isSpace_of_mem_text

theorem tolerates_text (line : RequestLine) : Tolerates line.text line := by
  refine ⟨by rw [RequestLine.words_text], ?_⟩
  rw [← countP_isSpace (onlySpaces_text line)]
  exact RequestLine.count_text

theorem words_eq_of_tolerates
    {bytes : List Byte} {line line' : RequestLine} (h : Tolerates bytes line)
    (h' : Tolerates bytes line') : line.words = line'.words := by
  have hlength : line.words.length = line'.words.length := by
    rw [← h.2, ← h'.2]
  rw [List.prefix_iff_eq_take.mp h.1, List.prefix_iff_eq_take.mp h'.1, hlength]

theorem response_of_tolerates
    {line : RequestLine} {message : List Byte} (hwords : line.words = request.words)
    (hresponse : request.Response message) :
    ∃ content : List Byte, message = line.text ++ 0 :: content ∧
      (content = [] ∨ content.length = fsBlockSize) := by
  have htext : responseHeader request.words = line.text ++ [0] := by
    rw [responseHeader, ← hwords]
    rfl
  cases request with
  | readblock req fields =>
      obtain ⟨block, rfl⟩ := hresponse
      refine ⟨List.ofFn block, ?_, Or.inr List.length_ofFn⟩
      rw [htext, List.append_assoc, List.singleton_append]
  | writeblock req fields data =>
      obtain rfl : message = _ := hresponse
      exact ⟨[], htext, Or.inl rfl⟩
  | create req fields =>
      obtain rfl : message = _ := hresponse
      exact ⟨[], htext, Or.inl rfl⟩
  | delete fields =>
      obtain rfl : message = _ := hresponse
      exact ⟨[], htext, Or.inl rfl⟩

/-- Every request line fits into a header, and the server takes a header exactly
as the grammar says if and only if it has no white space but spaces, or is not
tolerated at all. -/
theorem parsesExactly_iff
    (line : RequestLine) (stack : Stack) (data : Block) (reqHeader : Header) :
    line.text.length ≤ maxHeaderLen ∧
      (ParsesExactly stack data reqHeader ↔
        OnlySpaces reqHeader.bytes ∨
          ∀ line, ¬Tolerates reqHeader.bytes line) := by
  refine ⟨RequestLine.length_text, ?_⟩
  constructor
  · intro hparses
    by_contra hnot
    simp only [not_or, not_forall, not_not] at hnot
    obtain ⟨hother, line, htolerates⟩ := hnot
    obtain ⟨line', hline'⟩ :=
      hparses.goesOn_iff.mp (goesOn_of_tolerates stack data htolerates)
    exact hother (hline' ▸ onlySpaces_text line')
  · intro hcondition
    have hexact : ∀ line, Tolerates reqHeader.bytes line →
        reqHeader.bytes = line.text := by
      intro line htolerates
      rcases hcondition with honly | hnone
      · exact eq_text_of_tolerates honly htolerates
      · exact absurd htolerates (hnone line)
    refine ⟨⟨?_, ?_⟩, ?_, ?_⟩
    · rintro ⟨request, hgoesOn⟩
      obtain ⟨line, _, htolerates⟩ := tolerates_of_goesOn hgoesOn
      exact ⟨line, hexact line htolerates⟩
    · rintro ⟨line, hline⟩
      exact goesOn_of_tolerates stack data (hline ▸ tolerates_text line)
    · intro request hgoesOn line hline
      obtain ⟨line', hwords, htolerates⟩ := tolerates_of_goesOn hgoesOn
      rw [← hwords]
      exact words_eq_of_tolerates htolerates (hline ▸ tolerates_text line)
    · rw [handleRequests_eq]
      cases hselect : selectRequest reqHeader data with
      | none => exact calls_call trivial
      | some request =>
          cases htraversed : request.traversed with
          | none =>
              change (serve stack request).Calls _
              rw [serve_eq, htraversed]
              exact calls_call trivial
          | some path =>
              obtain ⟨line, hwords, htolerates⟩ :=
                tolerates_of_traversed hselect htraversed
              refine (calls_serve stack request).mono fun op hop => ?_
              cases op <;> try trivial
              rw [hexact line htolerates]
              exact response_of_tolerates hwords hop

/-- `"FS_DELETE u /a\t"`: the server deletes `/a`. -/
theorem not_parsesExactly_tab :
    ¬ParsesExactly
      { parentEntries := fun _ => { name := fun _ => 0, inodeBlock := 0 }
        newInode := { type := 0, owner := fun _ => 0, size := 0, blocks := fun _ => 0 } }
      (fun _ => 0)
      { bytes := deleteWord ++ [space, 117, space, slash, 97, 9]
        noNul := by decide
        length_le := by decide } := by
  intro hparses
  let line : RequestLine := {
    command := .delete
    username := [117]
    username_ne_nil := by decide
    username_length := by decide
    username_plain := by decide +kernel
    pathname := [slash, 97]
    path := [[97]]
    isPathname := ⟨by decide, by decide, rfl⟩
    pathname_length := by decide
    pathname_plain := by decide +kernel }
  have htolerates : Tolerates (deleteWord ++ [space, 117, space, slash, 97, 9]) line :=
    ⟨by decide, by decide⟩
  obtain ⟨line', hline'⟩ :=
    hparses.goesOn_iff.mp (goesOn_of_tolerates _ _ htolerates)
  have honly := onlySpaces_text line' 9 (hline' ▸ by decide) rfl
  exact absurd honly (by decide)

end FileServer
end Eecs482
