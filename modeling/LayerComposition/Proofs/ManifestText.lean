import LayerComposition.Manifest
import LayerComposition.Proofs.Yaml.Documents
import LayerComposition.Proofs.Yaml.Nodes

/-! # Manifests are read back

A manifest is written as a mapping of its settings, which is read as the tree that it stands for,
and that tree holds the settings again.
-/

namespace LayerComposition.Manifest

open Yaml

variable {scan : Scan} {before : List Token} {rest : List Char}

/-! ## Tokens -/

/-- The tokens of a key with a text. -/
def entryTokens (key text : String) : List Token :=
  Token.keyed key ++ [.ofValue text]

/-- The token of a name that need not be there. -/
def optionalToken : Option String → Token
  | none => .scalar "null" true
  | some name => .ofValue name

/-- The tokens of the names of the source files. -/
def filesTokens (files : SourceNames) : List Token :=
  .blockMapStart :: (entryTokens "catalog" files.catalog ++
    entryTokens "compositions" files.compositions ++ entryTokens "baseline" files.baseline ++
    [.blockEnd])

/-- The tokens of the patterns that are passed over. -/
def excludesTokens : List String → List Token
  | [] => [.flowListStart, .flowListEnd]
  | excludes => excludes.flatMap fun pattern => [.dash, .ofValue pattern]

/-- The tokens of a manifest. -/
def tokens (manifest : Manifest) : List Token :=
  .blockMapStart :: (entryTokens "characters" manifest.characters ++
    Token.keyed "default_character" ++ [optionalToken manifest.defaultCharacter] ++
    Token.keyed "files" ++ filesTokens manifest.files ++
    Token.keyed "excludes" ++ excludesTokens manifest.excludes ++ [.blockEnd])

/-! ## Reading the text -/

/-- The keys of a manifest and of the names of its files. -/
def keys : List String :=
  ["characters", "default_character", "files", "catalog", "compositions", "baseline", "excludes"]

theorem isKey_of_mem_keys : ∀ key ∈ keys, IsKey key.toList := by
  simp only [keys, List.forall_mem_cons, List.not_mem_nil, false_imp_iff, implies_true, and_true]
  refine ⟨?_, ?_, ?_, ?_, ?_, ?_, ?_⟩ <;> constructor <;> decide +kernel

/-- What is written for a key and a text behind the indentation of their line, up to the rest. -/
def entryText (column : Nat) (key text : String) (rest : List Char) : List Char :=
  key.toList ++ ':' :: ' ' :: ((Scalar.write (column + 2) text).toList ++ rest)

theorem toList_line (column : Nat) (key text : String) (rest : List Char) :
    (line column key text).toList ++ rest =
      List.replicate column ' ' ++ entryText column key text rest := by
  simp [line, entryText]

/-- The lines of the items of a list. -/
def itemsText (items : List String) : List Char :=
  items.flatMap fun item => '-' :: ' ' :: (Scalar.write 2 item).toList

theorem startsToken_itemsText (items : List String) :
    Scan.startsToken (itemsText items) = true := by
  cases items with
  | nil => rfl
  | cons item items => rfl

theorem comesTo_items (items : List String)
    (comesTo : scan.ComesTo before [0] 0 (itemsText items)) :
    scan.ComesTo (before ++ items.flatMap fun item => [.dash, .ofValue item]) [0] 0 [] := by
  induction items generalizing scan before with
  | nil => simpa [itemsText] using comesTo
  | cons item items ih =>
      have comesTo : scan.ComesTo before [0] 0 ('-' :: ' ' ::
          ((Scalar.write (0 + 2) item).toList ++ (List.replicate 0 ' ' ++ itemsText items))) :=
        comesTo
      simpa using ih (comesTo.item (startsToken_itemsText items) (Nat.le_refl 0))

theorem comesTo_line {key text : String} {indents : List Nat} {column width : Nat}
    (mem : key ∈ keys) (isToken : Scan.startsToken rest = true) (shallow : width ≤ column)
    (comesTo : scan.ComesTo before indents column
      (entryText column key text (List.replicate width ' ' ++ rest))) :
    scan.ComesTo (before ++ brackets column indents ++ entryTokens key text)
      (column :: enclosing column indents) width rest := by
  have line := Scan.ComesTo.line comesTo (isKey_of_mem_keys key mem) isToken shallow
  rwa [List.append_assoc] at line

/-- The line of the default character. -/
def defaultLine : Option String → String
  | none => "default_character: null\n"
  | some name => line 0 "default_character" name

theorem comesTo_default {default? : Option String} (isToken : Scan.startsToken rest = true)
    (comesTo : scan.ComesTo before [0] 0 ((defaultLine default?).toList ++ rest)) :
    scan.ComesTo (before ++ (Token.keyed "default_character" ++ [optionalToken default?])) [0]
      0 rest := by
  have mem : "default_character" ∈ keys := by decide
  cases default? with
  | none =>
      have comesTo : scan.ComesTo before [0] 0 ("default_character".toList ++ ':' :: ' ' ::
          ("null".toList ++ '\n' :: (List.replicate 0 ' ' ++ rest))) := comesTo
      have line := comesTo.plainLine (isKey_of_mem_keys _ mem) (by decide) (by decide) isToken
        (Nat.le_refl 0)
      simpa [brackets, enclosing, optionalToken] using line
  | some name =>
      have comesTo : scan.ComesTo before [0] 0
          (entryText 0 "default_character" name (List.replicate 0 ' ' ++ rest)) := by
        rwa [defaultLine, toList_line] at comesTo
      simpa [brackets, enclosing, optionalToken, entryTokens] using
        comesTo_line mem isToken (Nat.le_refl 0) comesTo

/-- The lines of the names of the source files. -/
def filesLines (files : SourceNames) : String :=
  "files:\n" ++ line 2 "catalog" files.catalog ++ line 2 "compositions" files.compositions ++
    line 2 "baseline" files.baseline

theorem comesTo_files {files : SourceNames} (isToken : Scan.startsToken rest = true)
    (comesTo : scan.ComesTo before [0] 0 ((filesLines files).toList ++ rest)) :
    scan.ComesTo (before ++ (Token.keyed "files" ++ .blockMapStart ::
      (entryTokens "catalog" files.catalog ++ entryTokens "compositions" files.compositions ++
        entryTokens "baseline" files.baseline))) [2, 0] 0 rest := by
  have comesTo : scan.ComesTo before [0] 0 ("files".toList ++ ':' :: '\n' ::
      (List.replicate 2 ' ' ++ entryText 2 "catalog" files.catalog
        (List.replicate 2 ' ' ++ entryText 2 "compositions" files.compositions
          (List.replicate 2 ' ' ++ entryText 2 "baseline" files.baseline
            (List.replicate 0 ' ' ++ rest))))) := by
    simp only [filesLines, String.toList_append, List.append_assoc] at comesTo
    simp only [toList_line] at comesTo
    exact comesTo
  have heading := comesTo.heading (isKey_of_mem_keys _ (by decide)) rfl
  have catalog := comesTo_line (by decide) rfl (Nat.le_refl 2) heading
  have compositions := comesTo_line (by decide) rfl (Nat.le_refl 2) catalog
  have baseline := comesTo_line (by decide) isToken (Nat.zero_le 2) compositions
  simpa [brackets, enclosing] using baseline

theorem comesTo_excludes {excludes : List String}
    (comesTo : scan.ComesTo before [2, 0] 0 (excludeLines excludes).toList) :
    scan.ComesTo (before ++ .blockEnd :: (Token.keyed "excludes" ++ excludesTokens excludes))
      [0] 0 [] := by
  have isKey : IsKey "excludes".toList := isKey_of_mem_keys _ (by decide)
  cases excludes with
  | nil =>
      have comesTo : scan.ComesTo before [2, 0] 0 ("excludes".toList ++ ':' :: ' ' :: '[' :: ']' ::
          '\n' :: (List.replicate 0 ' ' ++ [])) := comesTo
      simpa [brackets, enclosing, excludesTokens] using comesTo.emptyList isKey rfl
  | cons pattern excludes =>
      have comesTo : scan.ComesTo before [2, 0] 0 ("excludes".toList ++ ':' :: '\n' ::
          (List.replicate 0 ' ' ++ itemsText (pattern :: excludes))) := by
        have items_eq : (String.join ((pattern :: excludes).map fun pattern =>
            "- " ++ Scalar.write 2 pattern)).toList = itemsText (pattern :: excludes) := by
          simp [itemsText, String.toList_join, List.flatMap_map]
        rw [excludeLines, String.toList_append, items_eq] at comesTo
        · exact comesTo
        · simp
      have heading := comesTo.heading isKey (startsToken_itemsText _)
      simpa [brackets, enclosing, excludesTokens] using comesTo_items _ heading

theorem write_eq (manifest : Manifest) : manifest.write =
    line 0 "characters" manifest.characters ++ (defaultLine manifest.defaultCharacter ++
      (filesLines manifest.files ++ excludeLines manifest.excludes)) := by
  obtain ⟨characters, default?, files, excludes⟩ := manifest
  cases default? <;> simp only [write, defaultLine, filesLines, String.append_assoc]

theorem startsToken_excludeLines (excludes : List String) :
    Scan.startsToken (excludeLines excludes).toList = true := by
  cases excludes with
  | nil => rfl
  | cons pattern excludes => simp [excludeLines, Scan.startsToken, isBlank, isBreak]

theorem startsToken_filesLines (files : SourceNames) (rest : List Char) :
    Scan.startsToken ((filesLines files).toList ++ rest) = true := by
  simp [filesLines, Scan.startsToken, isBlank, isBreak]

theorem startsToken_defaultLine (default? : Option String) (rest : List Char) :
    Scan.startsToken ((defaultLine default?).toList ++ rest) = true := by
  cases default? with
  | none => rfl
  | some name => simp [defaultLine, line, Scan.startsToken, isBlank, isBreak]

/-- Reading a written manifest comes to its end with its mapping still open. -/
theorem comesTo_end (manifest : Manifest) : ∃ before,
    manifest.tokens = before ++ [.blockEnd] ∧
      (Scan.start manifest.write.toList).ComesTo before [0] 0 [] := by
  have start : (Scan.start manifest.write.toList).ComesTo [] [] 0
      (entryText 0 "characters" manifest.characters (List.replicate 0 ' ' ++
        ((defaultLine manifest.defaultCharacter).toList ++ ((filesLines manifest.files).toList ++
          (excludeLines manifest.excludes).toList)))) := by
    have text_eq : manifest.write.toList = entryText 0 "characters" manifest.characters
        ((defaultLine manifest.defaultCharacter).toList ++ ((filesLines manifest.files).toList ++
          (excludeLines manifest.excludes).toList)) := by
      simp only [write_eq, String.toList_append]
      rw [toList_line]
      rfl
    have isToken : Scan.startsToken manifest.write.toList = true := by
      rw [text_eq]
      rfl
    have start := Scan.comesTo_start isToken
    rw [text_eq] at start ⊢
    exact start
  have characters := comesTo_line (by decide) (startsToken_defaultLine _ _) (Nat.le_refl 0) start
  have default := comesTo_default (startsToken_filesLines _ _) characters
  have files := comesTo_files (startsToken_excludeLines _) default
  refine ⟨_, ?_, comesTo_excludes files⟩
  simp [tokens, brackets, filesTokens]

theorem all_isPrintable_write {indent : Nat} {text : String} :
    (Scalar.write indent text).toList.all Scalar.isPrintable = true :=
  List.all_eq_true.2 fun _ mem => Scalar.isPrintable_of_mem_write mem

theorem all_isPrintable_line {indent : Nat} {key text : String}
    (printable : key.toList.all Scalar.isPrintable = true) :
    (line indent key text).toList.all Scalar.isPrintable = true := by
  have space : Scalar.isPrintable ' ' = true := by decide
  have colon : Scalar.isPrintable ':' = true := by decide
  simp only [line, String.toList_append, List.all_append, printable, all_isPrintable_write]
  simp [space, colon]

theorem all_isPrintable_defaultLine (default? : Option String) :
    (defaultLine default?).toList.all Scalar.isPrintable = true := by
  cases default? with
  | none => decide
  | some name => exact all_isPrintable_line (by decide)

theorem all_isPrintable_filesLines (files : SourceNames) :
    (filesLines files).toList.all Scalar.isPrintable = true := by
  have heading : "files:\n".toList.all Scalar.isPrintable = true := by decide
  have entry (key text : String) (mem : key ∈ ["catalog", "compositions", "baseline"]) :
      (line 2 key text).toList.all Scalar.isPrintable = true := by
    have printable : ∀ key ∈ ["catalog", "compositions", "baseline"],
        key.toList.all Scalar.isPrintable = true := by decide
    exact all_isPrintable_line (printable key mem)
  simp only [filesLines, String.toList_append, List.all_append, heading]
  simp [entry]

theorem all_isPrintable_excludeLines (excludes : List String) :
    (excludeLines excludes).toList.all Scalar.isPrintable = true := by
  cases excludes with
  | nil => decide
  | cons pattern excludes =>
      have heading : "excludes:\n".toList.all Scalar.isPrintable = true := by decide
      have dash : "- ".toList.all Scalar.isPrintable = true := by decide
      simp only [excludeLines, String.toList_append, List.all_append, heading, String.toList_join,
        List.all_flatMap, List.all_map, Function.comp_def, dash, all_isPrintable_write]
      simp

theorem all_isPrintable_manifest (manifest : Manifest) :
    manifest.write.toList.all Scalar.isPrintable = true := by
  have first : "characters".toList.all Scalar.isPrintable = true := by decide
  simp only [write_eq, String.toList_append, List.all_append, all_isPrintable_line first,
    all_isPrintable_defaultLine, all_isPrintable_filesLines, all_isPrintable_excludeLines]
  rfl

theorem ofText_write (manifest : Manifest) :
    Token.ofText manifest.write = .ok manifest.tokens := by
  obtain ⟨before, tokens_eq, comesTo⟩ := manifest.comesTo_end
  rw [Token.ofText_of_comesTo (List.all_eq_true.1 manifest.all_isPrintable_manifest) comesTo,
    tokens_eq]
  rfl

/-! ## The tree -/

/-- The node of a key and the one of its text. -/
def entryNode (key text : String) : Node × Node :=
  (.scalar key true, .ofValue text)

def optionalNode : Option String → Node
  | none => .scalar "null" true
  | some name => .ofValue name

def filesNode (files : SourceNames) : Node :=
  .mapping [entryNode "catalog" files.catalog, entryNode "compositions" files.compositions,
    entryNode "baseline" files.baseline]

/-- The tree of a manifest. -/
def node (manifest : Manifest) : Node :=
  .mapping [entryNode "characters" manifest.characters,
    (.scalar "default_character" true, optionalNode manifest.defaultCharacter),
    (.scalar "files" true, filesNode manifest.files),
    (.scalar "excludes" true, .list (manifest.excludes.map .ofValue))]

section Reading

variable {behind : List Token}

theorem readBlockMap_entryTokens (size : Nat) (key text : String) (behind : List Token)
    (entries : List (Node × Node)) :
    Node.readBlockMap (size + 3) (entryTokens key text ++ behind) entries =
      Node.readBlockMap (size + 2) behind (entries ++ [entryNode key text]) :=
  Node.readBlockMap_entry (Node.readUnless_ofValue (fun _ => rfl) size true true behind)

theorem readUnless_optionalToken (default? : Option String) (size : Nat) (behind : List Token) :
    Node.readUnless (size + 2) Node.endsValue true true (optionalToken default? :: behind) =
      .ok (optionalNode default?, behind) := by
  cases default? with
  | none => exact Node.readUnless_scalar rfl size true true behind
  | some name => exact Node.readUnless_ofValue (fun _ => rfl) size true true behind

theorem readUnless_filesTokens (files : SourceNames) (size : Nat) (behind : List Token) :
    Node.readUnless (size + 8) Node.endsValue true true (filesTokens files ++ behind) =
      .ok (filesNode files, behind) := by
  have entries : filesTokens files ++ behind = .blockMapStart ::
      (entryTokens "catalog" files.catalog ++ (entryTokens "compositions" files.compositions ++
        (entryTokens "baseline" files.baseline ++ .blockEnd :: behind))) := by
    simp [filesTokens]
  rw [entries, Node.readUnless_blockMap, readBlockMap_entryTokens, readBlockMap_entryTokens,
    readBlockMap_entryTokens, Node.readBlockMap_blockEnd]
  rfl

theorem readUnless_excludesTokens {excludes : List String} {size : Nat}
    (ended : behind.head? ≠ some .dash) (enough : excludes.length ≤ size) :
    Node.readUnless (size + 5) Node.endsValue true true (excludesTokens excludes ++ behind) =
      .ok (.list (excludes.map .ofValue), behind) := by
  cases excludes with
  | nil => exact Node.readUnless_emptyList (size + 2) behind
  | cons pattern excludes =>
      exact Node.readUnless_items (List.cons_ne_nil pattern excludes) ended enough

theorem read_tokens {manifest : Manifest} {size : Nat} (enough : manifest.excludes.length ≤ size) :
    Node.read true false (size + 12) manifest.tokens = .ok (manifest.node, []) := by
  obtain ⟨characters, default?, files, excludes⟩ := manifest
  have entries : tokens ⟨characters, default?, files, excludes⟩ = .blockMapStart ::
      (entryTokens "characters" characters ++
        (Token.keyed "default_character" ++ [optionalToken default?] ++
          (Token.keyed "files" ++ filesTokens files ++
            (Token.keyed "excludes" ++ excludesTokens excludes ++ [.blockEnd])))) := by
    simp [tokens]
  have ended : [Token.blockEnd].head? ≠ some .dash := by decide
  have enough : excludes.length ≤ size + 2 := Nat.le_add_right_of_le enough
  rw [entries, Node.read, if_pos rfl, readBlockMap_entryTokens,
    Node.readBlockMap_entry (readUnless_optionalToken default? _ _),
    Node.readBlockMap_entry (readUnless_filesTokens files _ _),
    Node.readBlockMap_entry (readUnless_excludesTokens ended enough), Node.readBlockMap_blockEnd]
  rfl

end Reading

/-- The size that a document is read with leaves room for a manifest. -/
theorem exists_size (manifest : Manifest) : ∃ size,
    4 * manifest.tokens.length + 4 = size + 12 ∧ manifest.excludes.length ≤ size := by
  have items : manifest.excludes.length ≤ (excludesTokens manifest.excludes).length := by
    cases manifest.excludes with
    | nil => exact Nat.zero_le _
    | cons pattern excludes => simp [excludesTokens]; omega
  have length : 4 + manifest.excludes.length ≤ manifest.tokens.length := by
    simp [tokens, entryTokens, Token.keyed]
    omega
  exact ⟨4 * manifest.tokens.length - 8, by omega, by omega⟩

theorem node_ofText_write (manifest : Manifest) :
    Node.ofText manifest.write = .ok manifest.node := by
  obtain ⟨size, size_eq, enough⟩ := manifest.exists_size
  have read_eq := read_tokens enough
  rw [← size_eq] at read_eq
  have starts : ∃ more, manifest.tokens = .blockMapStart :: more := ⟨_, rfl⟩
  rw [Node.ofText, ofText_write]
  generalize manifest.tokens = tokens at read_eq starts
  obtain ⟨more, rfl⟩ := starts
  simp only [bind, Except.bind, read_eq]
  rfl

/-! ## The settings -/

theorem optionalText_optionalNode (key : String) (default? : Option String) :
    optionalText key (optionalNode default?) = .ok default? := by
  cases default? with
  | none => rfl
  | some name =>
      have suits := Scalar.Style.suits_ofText name
      rw [optionalNode, Node.ofValue, optionalText]
      generalize Scalar.Style.ofText name = style at suits
      cases suits with
      | plain clear keeps =>
          simp only [Scalar.isAmbiguous, Bool.or_eq_false_iff] at clear
          simp [clear]
      | _ => rfl

theorem texts_list (key : String) (items : List String) :
    texts key (.list (items.map .ofValue)) = .ok items := by
  unfold texts
  induction items with
  | nil => rfl
  | cons item items ih =>
      have later : (items.map Node.ofValue).mapM (text key) = .ok items := ih
      simp [later, text, Node.ofValue, bind, Except.bind, pure, Except.pure]

theorem readFiles_filesNode (files : SourceNames) : readFiles (filesNode files) = .ok files := by
  have entries_eq : entries (filesNode files) = .ok [("catalog", .ofValue files.catalog),
      ("compositions", .ofValue files.compositions), ("baseline", .ofValue files.baseline)] := rfl
  simp [readFiles, entries_eq, entry, text, Node.ofValue, bind, Except.bind, pure, Except.pure]

theorem ofNode_node (manifest : Manifest) : ofNode manifest.node = .ok manifest := by
  have entries_eq : entries manifest.node = .ok [("characters", .ofValue manifest.characters),
      ("default_character", optionalNode manifest.defaultCharacter),
      ("files", filesNode manifest.files),
      ("excludes", .list (manifest.excludes.map .ofValue))] := rfl
  have characters_eq (key text' : String) : text key (.ofValue text') = .ok text' := rfl
  simp [ofNode, entries_eq, entry, characters_eq, optionalText_optionalNode, readFiles_filesNode,
    texts_list, bind, Except.bind, pure, Except.pure]

/-- A manifest is read back from what is written for it. -/
theorem read_write (manifest : Manifest) : read manifest.write = .ok manifest := by
  rw [read, node_ofText_write]
  exact manifest.ofNode_node

/-- The own encoding of manifests is lawful. -/
instance lawfulCodec_yaml : LawfulCodec where
  decode_encode {manifest text} encoded := by
    obtain rfl : manifest.write = text := Except.ok.inj encoded
    change (read manifest.write).mapError ManifestError.message = .ok manifest
    rw [read_write]
    rfl

/-- What a text is decoded to may be found by evaluation. -/
theorem decode_eq_ok_of_toOption {text : String} {manifest : Manifest}
    (answer : (read text).toOption = some manifest) : Codec.decode text = .ok manifest := by
  change (read text).mapError ManifestError.message = .ok manifest
  cases outcome : read text with
  | error error => simp [outcome, Except.toOption] at answer
  | ok other =>
      obtain rfl : other = manifest := by simpa [outcome, Except.toOption] using answer
      rfl

end LayerComposition.Manifest
