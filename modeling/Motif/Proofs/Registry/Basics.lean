import Motif.Proofs.Registry.Tidiness

/-!
# The basic patterns

Registering the basic patterns succeeds. What is registered then are the printable characters and
the classes above them, each under its name and spelled by the characters of which it is made.
-/

namespace Motif.Registry

open Node (plainGroup plainRef spellAlternatives)
open Phrase (wrap)

variable {registry : Registry}

/-! ## Choices -/

/-- The tree that chooses among patterns. -/
def choiceTree (ids : List Int) : Node :=
  plainGroup (ids.map fun id => [plainRef id])

theorem reduceRoot_choiceTree (ids : List Int) : (choiceTree ids).reduceRoot = choiceTree ids := by
  have hreduced : Node.reduceAlternatives (ids.map fun id => [plainRef id]) =
      ids.map fun id => [plainRef id] := by
    rw [Node.reduceAlternatives_eq_map, List.map_map]
    rfl
  rw [choiceTree, Node.reduceRoot_plainGroup, hreduced, Node.unwrap.eq_2]
  intro inner hinner
  obtain ⟨id, -, hid⟩ := List.mem_map.mp (hinner ▸ List.mem_singleton_self _)
  cases hid

theorem spellContent_choiceTree (spelled : Int → List (List Phrase)) (ids : List Int) :
    spellContent spelled (.tree (choiceTree ids)) =
      ids.map fun id => wrap (spelled id) .once .here := by
  change spellAlternatives (fun _ => spelled) false (ids.map fun id => [plainRef id]) = _
  rw [spellAlternatives_eq_map, List.map_map]
  refine List.map_congr_left fun id _ => ?_
  simp [Node.spellSequence, Node.spell, plainRef]

/-- Lexemes with bars between them. -/
def choicePhrases (symbols : List Symbol) : List (List Phrase) :=
  symbols.map fun symbol => [.atom symbol .once .here]

theorem textOf_choicePhrases (symbols : List Symbol) :
    Phrase.textOf (choicePhrases symbols) = " | ".intercalate (symbols.map Symbol.text) := by
  have htexts : Phrase.textsOfAlternatives (choicePhrases symbols) = symbols.map Symbol.text := by
    induction symbols with
    | nil => rfl
    | cons first rest ih =>
        rw [choicePhrases, List.map_cons, Phrase.textsOfAlternatives, List.map_cons]
        congr 1
        simp [Phrase.textsOfSequence, Phrase.text, Look.mark, Quantity.suffix_once]
  rw [Phrase.textOf, htexts]

theorem readable_choicePhrases {symbols : List Symbol} (hsome : symbols ≠ [])
    (hsymbols : ∀ symbol ∈ symbols, symbol.IsReference) :
    Phrase.Readable (choicePhrases symbols) where
  nonempty hempty := hsome (List.map_eq_nil_iff.mp hempty)
  full := by simp [choicePhrases]
  legible := by
    intro sequence hsequence phrase hphrase
    obtain ⟨symbol, hsymbol, rfl⟩ := List.mem_map.mp hsequence
    obtain rfl := List.mem_singleton.mp hphrase
    exact .atom (hsymbols symbol hsymbol) (Phrase.allowed_here Quantity.legal_once)

/-- References with bars between them are compiled to the choice among their patterns. -/
theorem compileTree_choice {scope : Node.Scope} {subject : Option String} {symbols : List Symbol}
    (hsome : symbols ≠ []) (hsymbols : ∀ symbol ∈ symbols, symbol.IsReference)
    {target : Symbol → Int}
    (hresolve : ∀ symbol ∈ symbols, ∀ position,
      Node.Parser.resolve scope subject ⟨symbol, position⟩ = .ok (target symbol)) :
    compileTree scope (" | ".intercalate (symbols.map Symbol.text)) subject =
      .ok (choiceTree (symbols.map target)) := by
  have htrees : plainGroup (Phrase.treesOfAlternatives target (choicePhrases symbols)) =
      choiceTree (symbols.map target) := by
    rw [choiceTree, Phrase.treesOfAlternatives_eq_map, choicePhrases, List.map_map, List.map_map]
    rfl
  rw [← textOf_choicePhrases, compileTree_textOf (readable_choicePhrases hsome hsymbols) ?_ ?_,
    htrees, reduceRoot_choiceTree]
  · intro sequence hsequence phrase hphrase other hmention
    obtain ⟨symbol, hsymbol, rfl⟩ := List.mem_map.mp hsequence
    obtain rfl := List.mem_singleton.mp hphrase
    cases hmention
    exact hresolve _ hsymbol
  · intro sequence hsequence phrase hphrase
    obtain ⟨symbol, -, rfl⟩ := List.mem_map.mp hsequence
    obtain rfl := List.mem_singleton.mp hphrase
    exact Node.everywhere_ref_iff.mpr trivial

/-! ## Registries as lists of words -/

/-- The name of a pattern, and the phrases that spell it. -/
structure Word where
  name : String
  phrases : List (List Phrase)

/-- The lexeme by which text refers to the word. -/
def Word.symbol (word : Word) : Symbol :=
  if Text.isWord word.name.toList then .name word.name else .quoted (Text.quote word.name)

theorem Word.isReference_symbol {word : Word} (hname : word.name ≠ "") :
    word.symbol.IsReference := by
  unfold Word.symbol
  split
  next hword => exact hword
  next => exact ⟨word.name, hname, rfl⟩

theorem Word.resolve_symbol {word : Word} {scope : Node.Scope} {id : Int}
    (hid : scope.idOf word.name = some id) (subject : Option String) (position : Nat) :
    Node.Parser.resolve scope subject ⟨word.symbol, position⟩ = .ok id := by
  unfold Word.symbol
  split
  next => simp [Node.Parser.resolve, Symbol.text, hid]
  next => simp [Node.Parser.resolve, Text.unquote_quote, hid]

/-- The words are the registered patterns, in the order of registration. -/
structure Lists (registry : Registry) (words : List Word) : Prop extends registry.Tidy where
  registered_eq : registry.registered.map (fun entry =>
    (entry.2.name, spellContent registry.spelling entry.2.content)) =
      words.map fun word => (some word.name, word.phrases)

theorem lists_empty : Lists {} [] where
  toTidy := tidy_empty
  registered_eq := rfl

namespace Lists

variable {words : List Word}

theorem exists_pattern (hlists : registry.Lists words) {word : Word} (hword : word ∈ words) :
    ∃ pattern, registry.byId? pattern.id = some pattern ∧ pattern.name = some word.name ∧
      registry.spelling pattern.id = word.phrases := by
  have hmem : (some word.name, word.phrases) ∈ registry.registered.map (fun entry =>
      (entry.2.name, spellContent registry.spelling entry.2.content)) := by
    rw [hlists.registered_eq]
    exact List.mem_map_of_mem hword
  obtain ⟨⟨serial, pattern⟩, hregistered, hsame⟩ := List.mem_map.mp hmem
  obtain ⟨hname, hphrases⟩ := Prod.mk.inj hsame
  have hpattern := hlists.coherent.mem_patterns_iff.mp (mem_registered hregistered).2
  exact ⟨pattern, hpattern, hname, (spelling_eq hlists.grounded hpattern).trans hphrases⟩

theorem exists_idOf (hlists : registry.Lists words) {word : Word} (hword : word ∈ words) :
    ∃ id, registry.scope.idOf word.name = some id := by
  obtain ⟨pattern, hpattern, hname, -⟩ := hlists.exists_pattern hword
  exact ⟨pattern.id, hlists.named.idOf_scope hlists.coherent hpattern hname⟩

theorem names_eq (hlists : registry.Lists words) :
    registry.registered.map (fun entry => entry.2.name) = words.map fun word => some word.name := by
  have hnames := congrArg (List.map Prod.fst) hlists.registered_eq
  rwa [List.map_map, List.map_map] at hnames

theorem named?_eq_none (hlists : registry.Lists words) {name : String}
    (hname : name ∉ words.map Word.name) : registry.named? name = none := by
  rw [named?_eq_none_iff]
  intro hmem
  obtain ⟨⟨given, serial⟩, hentry, rfl⟩ := List.mem_map.mp hmem
  obtain ⟨pattern, hregistered, hpattern, hgiven⟩ := hlists.registered_of_named given serial hentry
  have hmem : pattern.name ∈ registry.registered.map fun entry => entry.2.name :=
    List.mem_map_of_mem (f := fun entry : Serial × Pattern => entry.2.name)
      (mem_registered_of_entry hregistered hpattern)
  rw [hlists.names_eq, hgiven, List.mem_map] at hmem
  obtain ⟨word, hword, hsame⟩ := hmem
  exact hname (Option.some.inj hsame ▸ List.mem_map_of_mem hword)

/-- The lexeme of a word leads to a pattern that is spelled like the word. -/
theorem resolve (hlists : registry.Lists words) {word : Word} (hword : word ∈ words) :
    (registry.byId? (registry.scope.target word.symbol)).isSome ∧
    registry.spelling (registry.scope.target word.symbol) = word.phrases ∧
    ∀ subject position, Node.Parser.resolve registry.scope subject ⟨word.symbol, position⟩ =
      .ok (registry.scope.target word.symbol) := by
  obtain ⟨pattern, hpattern, hname, hphrases⟩ := hlists.exists_pattern hword
  have hresolve := word.resolve_symbol (hlists.named.idOf_scope hlists.coherent hpattern hname)
  have htarget : registry.scope.target word.symbol = pattern.id := by
    rw [Node.Scope.target, hresolve]
  rw [htarget]
  exact ⟨Option.isSome_of_eq_some hpattern, hphrases, hresolve⟩

section Adding

variable {pattern : Pattern} {name : String} (hlists : registry.Lists words)
  (hname : pattern.name = some name) (hnew : name ∉ words.map Word.name) (hid : pattern.id < 0)
include hlists hname hnew hid

theorem free : registry.Free pattern where
  name given hgiven := by
    obtain rfl : name = given := Option.some.inj (hname.symm.trans hgiven)
    exact hlists.named?_eq_none hnew
  id hnonneg := absurd hid (Int.not_lt.mpr hnonneg)

/-- A pattern that is registered under a new name is the last word. -/
theorem extend (hfits : registry.Fits pattern.content) :
    (registry.extend { pattern with id := registry.idFor pattern }).Lists
      (words ++ [⟨name, spellContent registry.spelling pattern.content⟩]) := by
  have hfree := hlists.free hname hnew hid
  have hserial := hlists.serialOf?_idFor hfree
  have htidy : (registry.extend { pattern with id := registry.idFor pattern }).Tidy :=
    hlists.toTidy.extend hfits (hlists.idFor_nonneg pattern) hserial hfree.name
  -- What has been there before is spelled as before, for it does not refer to the new pattern.
  have hsame : ∀ {content : Content}, registry.Fits content →
      spellContent (registry.extend { pattern with id := registry.idFor pattern }).spelling
        content = spellContent registry.spelling content := fun hcontent =>
    (spellContent_eq_of_agrees hlists.grounded htidy.grounded
      (hlists.toOrderly.agrees_extend hserial) hcontent.known).symm
  refine ⟨htidy, ?_⟩
  rw [hlists.toOrderly.coherent.registered_extend, List.map_append, List.map_append, ← hlists.registered_eq]
  congr 1
  · refine List.map_congr_left fun entry hentry => ?_
    rw [hsame (hlists.sound.fits (mem_registered hentry).2)]
  · rw [List.map_singleton, List.map_singleton, hsame hfits, hname]

theorem settles_add (hfits : registry.Fits pattern.content) :
    SettlesFrom (Lists · (words ++ [⟨name, spellContent registry.spelling pattern.content⟩]))
      registry (add pattern) registry.ledger.size := by
  have hidentity : ∃ text, ({ pattern with id := registry.idFor pattern } : Pattern).identity =
      .ok text := by
    unfold Pattern.identity
    rw [hname]
    exact ⟨_, rfl⟩
  obtain ⟨text, htext⟩ := hidentity
  have hrun := run_add_of_free (hlists.free hname hnew hid)
  rw [htext] at hrun
  exact ⟨_, hrun, hlists.extend hname hnew hid hfits⟩

end Adding

/-- A literal is spelled by its text. -/
theorem settles_addLiteral (hlists : registry.Lists words) (text : String) {name : String}
    (hnew : name ∉ words.map Word.name) :
    SettlesFrom (Lists · (words ++ [⟨name, [[.atom (.quoted (Text.quote text)) .once .here]]⟩]))
      registry (addLiteral text name) registry.ledger.size :=
  hlists.settles_add rfl hnew (Int.negSucc_lt_zero 0) (Fits.literal text)

end Lists

/-- A class of words. -/
structure Choice where
  name : String
  chosen : List Word

/-- The text of a class, in which bars stand between the words. -/
def Choice.text (choice : Choice) : String :=
  " | ".intercalate ((choice.chosen.map Word.symbol).map Symbol.text)

/-- A class is spelled by what spells its words. -/
def Choice.word (choice : Choice) : Word :=
  ⟨choice.name, choice.chosen.map fun word => wrap word.phrases .once .here⟩

/-- There is something to choose from, and text can refer to it. -/
structure Choice.Offers (choice : Choice) (words : List Word) : Prop where
  some : choice.chosen ≠ []
  mem : ∀ word ∈ choice.chosen, word ∈ words
  named : ∀ word ∈ choice.chosen, word.name ≠ ""

theorem Choice.Offers.mono {choice : Choice} {words more : List Word}
    (hoffers : choice.Offers words) (hmore : words ⊆ more) : choice.Offers more where
  some := hoffers.some
  mem word hword := hmore (hoffers.mem word hword)
  named := hoffers.named

/-- A class of words is registered as what chooses among their patterns. -/
theorem Lists.settles_register {words : List Word} (hlists : registry.Lists words) {choice : Choice}
    (hnew : choice.name ∉ words.map Word.name) (hoffers : choice.Offers words) (kind : Kind) :
    SettlesFrom (Lists · (words ++ [choice.word])) registry (register choice.name kind choice.text)
      registry.ledger.size := by
  have hresolve := fun word hword => hlists.resolve (hoffers.mem word hword)
  have htree : compileTree registry.scope choice.text (some choice.name) =
      .ok (choiceTree ((choice.chosen.map Word.symbol).map registry.scope.target)) := by
    refine compileTree_choice (by simpa using hoffers.some) ?_ ?_
    · simpa using fun word hword => Word.isReference_symbol (hoffers.named word hword)
    · simpa using fun word hword => (hresolve word hword).2.2 (some choice.name)
  have hknown : ∀ id ∈
      (choiceTree ((choice.chosen.map Word.symbol).map registry.scope.target)).references,
        (registry.byId? id).isSome := by
    intro id hid
    obtain ⟨word, hword, rfl⟩ :
        ∃ word ∈ choice.chosen, id = registry.scope.target word.symbol := by
      simpa [choiceTree, plainGroup, plainRef] using hid
    exact (hresolve word hword).1
  obtain ⟨penalty, hcompile⟩ := exists_compile htree hknown kind
  have hphrases : spellContent registry.spelling
      (.tree (choiceTree ((choice.chosen.map Word.symbol).map registry.scope.target))) =
        choice.word.phrases := by
    rw [spellContent_choiceTree, List.map_map, List.map_map]
    exact List.map_congr_left fun word hword => by simp [(hresolve word hword).2.1]
  obtain ⟨after, hrun, hafter⟩ :=
    hlists.settles_add rfl hnew (Int.negSucc_lt_zero 0) (fits_of_compile hcompile)
  rw [hphrases] at hafter
  refine ⟨after, (run_register ?_ hcompile _).trans hrun, hafter⟩
  rintro _ ⟨⟩
  exact hlists.named?_eq_none hnew

/-- What registers one word at a time registers all of them. -/
theorem Lists.settles_forM {α : Type} {base : List Word} {action : α → Action PUnit}
    {word : α → Word} {xs : List α}
    (haction : ∀ x ∈ xs, ∀ registry words, Lists registry words → base ⊆ words →
      (word x).name ∉ words.map Word.name →
        SettlesFrom (Lists · (words ++ [word x])) registry (action x) ⟨⟩)
    {words : List Word} (hlists : registry.Lists words) (hbase : base ⊆ words)
    (hnames : ((words ++ xs.map word).map Word.name).Nodup) :
    SettlesFrom (Lists · (words ++ xs.map word)) registry (xs.forM action) ⟨⟩ := by
  induction xs generalizing registry words with
  | nil =>
      rw [List.map_nil, List.append_nil]
      exact ⟨registry, rfl, hlists⟩
  | cons first rest ih =>
      rw [List.map_cons, List.append_cons] at hnames ⊢
      have hnew : (word first).name ∉ words.map Word.name := by
        rw [List.map_append, List.map_append] at hnames
        have hfirst := (List.nodup_append.mp hnames).1
        exact fun hmem => (List.nodup_append.mp hfirst).2.2 _ hmem _ (by simp) rfl
      have hstep := haction first List.mem_cons_self registry words hlists hbase hnew
      refine hstep.andThen fun middle hmiddle => ?_
      exact ih (fun x hx => haction x (List.mem_cons_of_mem _ hx)) hmiddle
        (List.Subset.trans hbase (List.subset_append_left _ _)) hnames

/-- Classes are registered one after another. -/
theorem Lists.settles_classes {words : List Word} (hlists : registry.Lists words)
    {choices : List Choice} (hoffers : ∀ choice ∈ choices, choice.Offers words)
    (hnames : ((words ++ choices.map Choice.word).map Word.name).Nodup) (kind : Kind) :
    SettlesFrom (Lists · (words ++ choices.map Choice.word)) registry
      ((choices.map fun choice => (choice.name, choice.text)).forM fun entry =>
        discard (register entry.1 kind entry.2)) ⟨⟩ := by
  have hforM : ((choices.map fun choice => (choice.name, choice.text)).forM fun entry =>
      discard (register entry.1 kind entry.2)) =
        choices.forM fun choice => discard (register choice.name kind choice.text) :=
    List.forM_map
  rw [hforM]
  refine Lists.settles_forM (fun choice hchoice registry seen hseen hbase hnew => ?_) hlists
    (List.Subset.refl _) hnames
  exact (hseen.settles_register hnew ((hoffers choice hchoice).mono hbase) kind).discard

/-! ## The words of the basic patterns -/

/-- The literal of a character. -/
def literalWord (c : Char) : Word :=
  ⟨literalName c, [[.atom (.quoted (Text.quote (single c))) .once .here]]⟩

/-- The literals of the printable characters. -/
def literalWords : List Word :=
  printableAscii.map literalWord

/-- All capital letters. -/
def uppercase : Choice :=
  ⟨"Uppercase", capitals.map literalWord⟩

/-- All small letters. -/
def lowercase : Choice :=
  ⟨"Lowercase", (capitals.map Char.toLower).map literalWord⟩

/-- The classes of letters: every letter in both cases, and all letters of one case. -/
def letterClasses : List Choice :=
  (capitals.map fun c => ⟨String.ofList [c, c.toLower], [c, c.toLower].map literalWord⟩) ++
    [uppercase, lowercase]

/-- All letters, and all digits. -/
def lastClasses : List Choice :=
  [⟨"Letter", [uppercase.word, lowercase.word]⟩, ⟨"Digit", (charRange 48 57).map literalWord⟩]

/-- The words of the basic patterns. -/
def basicWords : List Word :=
  literalWords ++ letterClasses.map Choice.word ++ lastClasses.map Choice.word

theorem literalWord_mem_basicWords {c : Char} (hc : c ∈ printableAscii) :
    literalWord c ∈ basicWords :=
  List.mem_append_left _ (List.mem_append_left _ (List.mem_map_of_mem hc))

theorem basicClasses_eq : basicClasses =
    letterClasses.map (fun choice => (choice.name, choice.text)) ++
      lastClasses.map fun choice => (choice.name, choice.text) := by
  decide +kernel

/-- The bytes of a text. -/
def bytes (text : String) : List Nat :=
  text.toByteArray.data.toList.map UInt8.toNat

theorem nodup_of_bytes {texts : List String} (hbytes : (texts.map bytes).Nodup) : texts.Nodup :=
  .of_map bytes hbytes

theorem nodup_names_basicWords : (basicWords.map Word.name).Nodup :=
  nodup_of_bytes (by decide +kernel)

theorem nodup_texts_basicWords : (basicWords.map fun word => Phrase.textOf word.phrases).Nodup :=
  nodup_of_bytes (by decide +kernel)

theorem literalName_ne_empty (c : Char) : literalName c ≠ "" := by
  unfold literalName
  -- The name of a character is itself or one of a few words.
  repeat' split
  all_goals simp

theorem offers_literalWords {name : String} {cs : List Char} (hsome : cs ≠ [])
    (hprintable : cs ⊆ printableAscii) :
    Choice.Offers ⟨name, cs.map literalWord⟩ literalWords where
  some := by simpa using hsome
  mem := List.map_subset literalWord hprintable
  named word hword := by
    obtain ⟨c, -, rfl⟩ := List.mem_map.mp hword
    exact literalName_ne_empty c

theorem subset_printableAscii : capitals ⊆ printableAscii ∧
    capitals.map Char.toLower ⊆ printableAscii ∧ charRange 48 57 ⊆ printableAscii := by
  decide +kernel

theorem offers_of_mem_letterClasses {choice : Choice} (hchoice : choice ∈ letterClasses) :
    choice.Offers literalWords := by
  obtain ⟨hcapitals, hsmall, -⟩ := subset_printableAscii
  rcases List.mem_append.mp hchoice with hpair | hcase
  · obtain ⟨c, hc, rfl⟩ := List.mem_map.mp hpair
    refine offers_literalWords (List.cons_ne_nil _ _) ?_
    simpa using ⟨hcapitals hc, hsmall (List.mem_map_of_mem hc)⟩
  · rcases List.mem_pair.mp hcase with rfl | rfl
    · exact offers_literalWords (by decide) hcapitals
    · exact offers_literalWords (by decide) hsmall

theorem offers_of_mem_lastClasses {choice : Choice} (hchoice : choice ∈ lastClasses) :
    choice.Offers (literalWords ++ letterClasses.map Choice.word) := by
  rcases List.mem_pair.mp hchoice with rfl | rfl
  · refine ⟨List.cons_ne_nil _ _, by simp [letterClasses], ?_⟩
    simp [uppercase, lowercase, Choice.word]
  · have hdigits := subset_printableAscii.2.2
    exact (offers_literalWords (by decide) hdigits).mono (List.subset_append_left _ _)

theorem settles_literalWords : SettlesFrom (Lists · literalWords) {}
    (printableAscii.forM fun c => discard (addLiteral (single c) (literalName c))) ⟨⟩ := by
  refine Lists.settles_forM (fun c _ registry words hlists _ hnew => ?_) lists_empty
    (List.Subset.refl _) (nodup_names_basicWords.sublist ?_)
  · exact (hlists.settles_addLiteral (single c) hnew).discard
  · rw [basicWords, List.append_assoc]
    exact (List.sublist_append_left _ _).map Word.name

/-- Registering the basic patterns makes them the words of a registry that has been empty. -/
theorem settles_registerBasics : SettlesFrom (Lists · basicWords) {} registerBasics ⟨⟩ := by
  have hclasses : (basicClasses.forM fun entry => discard (register entry.1 .basics entry.2)) =
      ((letterClasses.map fun choice => (choice.name, choice.text)).forM fun entry =>
        discard (register entry.1 .basics entry.2)) >>= fun _ =>
      (lastClasses.map fun choice => (choice.name, choice.text)).forM fun entry =>
        discard (register entry.1 .basics entry.2) := by
    rw [basicClasses_eq]
    exact List.forM_append
  refine settles_literalWords.andThen fun registry hlists => ?_
  rw [hclasses]
  refine SettlesFrom.andThen (hlists.settles_classes (fun _ => offers_of_mem_letterClasses)
    (nodup_names_basicWords.sublist ?_) .basics) fun middle hmiddle => ?_
  · exact (List.sublist_append_left _ _).map Word.name
  · exact hmiddle.settles_classes (fun _ => offers_of_mem_lastClasses) nodup_names_basicWords
      .basics

/-! ## Full descriptions -/

theorem unwrapped_of_two_le_length {alternatives : List (List Phrase)}
    (hlength : 2 ≤ alternatives.length) : Phrase.unwrapped alternatives = alternatives := by
  rw [Phrase.unwrapped.eq_2]
  rintro inner rfl
  simp at hlength

theorem unwrapped_of_mem_basicWords {word : Word} (hword : word ∈ basicWords) :
    Phrase.unwrapped word.phrases = word.phrases := by
  have hchoice : ∀ choice ∈ letterClasses ++ lastClasses, 2 ≤ choice.chosen.length := by
    decide +kernel
  rw [basicWords, List.append_assoc, ← List.map_append] at hword
  rcases List.mem_append.mp hword with hliteral | hclass
  · obtain ⟨c, -, rfl⟩ := List.mem_map.mp hliteral
    rw [literalWord, Phrase.unwrapped.eq_2]
    rintro inner ⟨⟩
  · obtain ⟨choice, hmem, rfl⟩ := List.mem_map.mp hclass
    exact unwrapped_of_two_le_length (by simpa [Choice.word] using hchoice choice hmem)

/-- No two basic patterns have the same full description. -/
theorem Lists.nodup_fullText (hlists : registry.Lists basicWords) :
    (registry.registered.map fun entry => registry.fullText entry.2.content).Nodup := by
  have htexts : (registry.registered.map fun entry => registry.fullText entry.2.content) =
      basicWords.map fun word => Phrase.textOf word.phrases := by
    have hphrases := congrArg (List.map fun item => Phrase.textOf (Phrase.unwrapped item.2))
      hlists.registered_eq
    rw [List.map_map, List.map_map] at hphrases
    have hentries : (registry.registered.map fun entry => registry.fullText entry.2.content) =
        registry.registered.map ((fun item => Phrase.textOf (Phrase.unwrapped item.2)) ∘
          fun entry => (entry.2.name, spellContent registry.spelling entry.2.content)) :=
      List.map_congr_left fun entry _ => fullText_eq_textOf entry.2.content
    rw [hentries, hphrases]
    exact List.map_congr_left fun word hword =>
      congrArg Phrase.textOf (unwrapped_of_mem_basicWords hword)
  rw [htexts]
  exact nodup_texts_basicWords

end Motif.Registry
