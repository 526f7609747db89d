import Harpia.LayoutRuns

namespace Harpia

open Filter

namespace MessageCreator

/-- Between the definitions of a file: whole lines are all that is left of what was read. -/
structure AtTop (mc : MessageCreator) (s : Scan) (left : List Token) : Prop where
  outside : s.startMessage = none
  body : s.endOfBody = none
  message : s.endOfMessage = none
  endPos : s.endPos = mc.tokens.length
  lines : ∃ before lines, mc.tokens = before ++ (lines ++ left) ∧ s.i = (before ++ lines).length ∧
    s.curNewLine = before.length ∧ Inert (before ++ lines) ∧ WholeLines lines

theorem atTop_line {mc : MessageCreator} {s : Scan} {l : Line} {left : List Token}
    (h : AtTop mc s (l.tokens ++ left)) :
    ∃ s', Reaches false mc s mc s' ∧ AtTop mc s' left := by
  obtain ⟨before, lines, tokens, i, cur, inert, whole⟩ := h.lines
  have run := reaches_inert (b := false) (before ++ lines) l.tokens left
    (by simp [tokens]) l.inert i h.endPos.ge h.body h.message
  rw [Processing.lineMark_wholeLines l.wholeLines l.tokens_ne_nil] at run
  refine ⟨_, run, h.outside, h.body, h.message, h.endPos, before ++ lines ++ l.content, [l.newline],
    ?_, ?_, ?_, ?_, ?_⟩
  · simp [tokens, Line.tokens]
  · simp [Line.tokens, Nat.add_assoc]
  · simp [Line.tokens, Nat.add_assoc]
  · simpa [Line.tokens] using inert.append l.inert
  · intro t ht
    rw [List.getLast?_singleton, Option.mem_some_iff] at ht
    exact ht ▸ l.newline_kind

/-- A definition of the file is stored together with the ones nested in it, and cut out. -/
theorem atTop_definition {mc : MessageCreator} {s : Scan} {d : Definition} {left : List Token}
    {P : Parsed} (h : AtTop mc s (d.tokens ++ left)) (scanned : d.body.Scanned 0)
    (plainEnum : ∀ d' ∈ d.body.definitions ++ [d], d'.PlainEnum)
    (accepted : mc.toParsed.addAll mc.file (d.body.definitions ++ [d]) = .ok P) :
    ∃ mc' s', Reaches false mc s mc' s' ∧ AtTop mc' s' left ∧ mc'.toParsed = P ∧
      mc'.file = mc.file := by
  obtain ⟨P', nested, last⟩ := addAll_append_eq_ok.mp accepted
  obtain ⟨Q, added, hQ⟩ := addAll_cons_eq_ok.mp last
  obtain rfl := addAll_nil.mp hQ
  obtain ⟨before, lines, tokens, i, cur, inert, whole⟩ := h.lines
  have inertLines : Inert lines := fun t ht => inert t (List.mem_append_right _ ht)
  obtain ⟨mc₁, s₁, run, started, lineEnd, parsed, file⟩ := reaches_lineEnd (b := false)
    _ _ _ d (bodyRuns d.body) tokens i cur h.outside h.body h.message h.endPos.ge scanned.clear_zero
    (fun d' hd => plainEnum d' (List.mem_append_left _ hd)) nested
  obtain ⟨m, sidecars, processed, htokens, hparsed⟩ := store_lineEnd (P := Q) lineEnd
    (plainEnum d (by simp)) inertLines whole (by rw [parsed, file]; exact added)
  obtain ⟨bound, ht, quiet⟩ := lineEnd_quiet lineEnd
  have complete := advance_complete false ht d.closing.newline_kind started lineEnd.body processed
  rw [if_neg Bool.false_ne_true] at complete
  refine ⟨_, _, run.trans (reaches_quiet bound ht quiet complete), ⟨rfl, rfl, rfl, rfl, [],
    before ++ [d.closing.newline], ?_, ?_, rfl, ?_, ?_⟩, hparsed, file⟩
  · simp [htokens]
  · have := lineEnd.i
    simp only [List.nil_append, List.length_append, List.length_singleton] at this ⊢
    omega
  · rw [List.nil_append]
    exact Inert.append (fun t ht => inert t (List.mem_append_left _ ht))
      (inert_newline d.closing.newline_kind)
  · intro t ht
    rw [List.getLast?_concat, Option.mem_some_iff] at ht
    exact ht ▸ d.closing.newline_kind

/-- A whole file runs, definition after definition. -/
theorem reaches_end (L : Layout) {mc : MessageCreator} {s : Scan} {P : Parsed}
    (h : AtTop mc s L.tokens) (scanned : L.AllScanned) (plainEnum : ∀ d ∈ L.definitions, d.PlainEnum)
    (accepted : mc.toParsed.addAll mc.file L.definitions = .ok P) :
    ∃ mc' s', Reaches false mc s mc' s' ∧ AtTop mc' s' [] ∧ mc'.toParsed = P ∧ mc'.file = mc.file := by
  induction L generalizing mc s with
  | nil => exact ⟨mc, s, fun r hr => hr, h, addAll_nil.mp accepted, rfl⟩
  | line l rest ih =>
    obtain ⟨s₁, run₁, h₁⟩ := atTop_line h
    obtain ⟨mc', s', run', h', parsed, file⟩ := ih h₁ scanned plainEnum accepted
    exact ⟨mc', s', run₁.trans run', h', parsed, file⟩
  | definition header body closing rest _ ih =>
    let d : Definition := ⟨header, body, closing⟩
    have definitions : (Layout.definition header body closing rest).definitions =
        (body.definitions ++ [d]) ++ rest.definitions := by
      simp [Layout.definitions, d]
    rw [definitions] at plainEnum accepted
    obtain ⟨P₁, nested, accepted⟩ := addAll_append_eq_ok.mp accepted
    have htokens : (Layout.definition header body closing rest).tokens = d.tokens ++ rest.tokens := by
      simp [Layout.tokens, Definition.tokens, d]
    rw [htokens] at h
    obtain ⟨mc₁, s₁, run₁, h₁, parsed₁, file₁⟩ := atTop_definition h scanned.1
      (fun d' hd => plainEnum d' (List.mem_append_left _ hd)) nested
    obtain ⟨mc', s', run', h', parsed, file⟩ := ih h₁ scanned.2
      (fun d' hd => plainEnum d' (List.mem_append_right _ hd)) (by rw [parsed₁, file₁]; exact accepted)
    exact ⟨mc', s', run₁.trans run', h', parsed, file.trans file₁⟩

theorem ends_end {b : Bool} {mc : MessageCreator} {s : Scan} (h : s.endPos ≤ s.i) :
    Ends b mc s (.returned (mc.allUnique.map mc.multipleInstances), mc) := by
  refine eventually_succ (Eventually.of_forall fun fuel => ?_)
  rw [loop, if_neg (by omega)]

end MessageCreator

/-- Every message keeps the file and the name of its definition. -/
theorem message_name {d : Definition} {file : String} {available : List String}
    {sidecars sidecars' : Sidecars} {m : ParsedMessage}
    (h : d.message file available sidecars = .ok (m, sidecars')) :
    m.name = d.header.name.lexeme ∧ m.file = file := by
  obtain ⟨message, body, hm, _, read, _, rfl⟩ := message_eq_ok h
  refine ⟨rfl, (Processing.readBody_keeps file available read).1.trans ?_⟩
  rw [hm]
  rfl

def Definition.name (d : Definition) : String := d.header.name.lexeme

theorem addAll_names {file : String} {ds : List Definition} {p q : Parsed}
    (h : p.addAll file ds = .ok q) (files : ∀ m ∈ p.messages, m.file = file) :
    q.messages.map ParsedMessage.name = p.messages.map ParsedMessage.name ++ ds.map Definition.name ∧
      ∀ m ∈ q.messages, m.file = file := by
  induction ds generalizing p with
  | nil =>
    obtain rfl := MessageCreator.addAll_nil.mp h
    exact ⟨by simp, files⟩
  | cons d ds ih =>
    obtain ⟨p', added, rest⟩ := MessageCreator.addAll_cons_eq_ok.mp h
    obtain ⟨⟨m, sidecars⟩, hm, hp⟩ := bind_eq_ok.mp added
    obtain rfl := Except.ok.inj hp
    obtain ⟨hname, hfile⟩ := message_name hm
    obtain ⟨names, files'⟩ := ih rest (by
      intro m' hm'
      rcases List.mem_append.mp hm' with hm' | hm'
      · exact files m' hm'
      · rw [List.mem_singleton.mp hm', hfile])
    refine ⟨?_, files'⟩
    rw [names]
    simp [hname, Definition.name]

/-- Messages of one file with distinct names pass the last check. -/
theorem allUnique_of_nodup {mc : MessageCreator} {file : String}
    (files : ∀ m ∈ mc.messages, m.file = file)
    (distinct : (mc.messages.map ParsedMessage.name).Nodup) : mc.allUnique = none := by
  have seen : mc.messages.map (fun msg => msg.name ++ " - " ++ msg.file) =
      (mc.messages.map ParsedMessage.name).map fun name => name ++ (" - " ++ file) := by
    rw [List.map_map]
    refine List.map_congr_left fun m hm => ?_
    simp [files m hm, String.append_assoc]
  unfold MessageCreator.allUnique
  simp only
  rw [seen, if_pos]
  refine distinct.map fun a b h => ?_
  have hl := congrArg String.toList h
  simp only [String.toList_append] at hl
  exact String.toList_inj.mp (List.append_cancel_right hl)

/-- The definitions nested in one come before it. -/
theorem definitions_nested {L : Layout} {d d' : Definition} (hd : d ∈ L.definitions)
    (hd' : d' ∈ d.body.definitions) : [d', d].Sublist L.definitions := by
  induction L with
  | nil => cases hd
  | line l rest ih => exact ih hd
  | definition header body closing rest ihb ihr =>
    rcases List.mem_append.mp hd with hb | hr
    · exact (ihb hb).trans (List.sublist_append_left _ _)
    · rcases List.mem_cons.mp hr with rfl | hr
      · exact (List.singleton_sublist.mpr hd').append (List.singleton_sublist.mpr (by simp))
      · exact (ihr hr).trans ((List.sublist_cons_self _ _).trans (List.sublist_append_right _ _))

/-- What `CreateMessages` has to do with a layout: it returns `None`, and its messages are those of
the definitions, one each, read in an order that puts nested definitions first. -/
def ParsedAs (L : Layout) (sidecars : Sidecars) (r : Outcome × MessageCreator) : Prop :=
  r.1 = .returned none ∧ ∃ ds : List Definition, ds.Perm L.definitions ∧
    (∀ d ∈ L.definitions, ∀ d' ∈ d.body.definitions, [d', d].Sublist ds) ∧
    Parsed.addAll r.2.file { sidecars := sidecars } ds = .ok r.2.toParsed

/-- Every definition is accepted on its own lines, and no two share a name. -/
def Layout.Accepted (L : Layout) (file : String) (sidecars : Sidecars) : Prop :=
  (Parsed.addAll file { sidecars := sidecars } L.definitions).isOk ∧
    (L.definitions.map Definition.name).Nodup

theorem createMessages_layout (L : Layout) (file : String) (sidecars : Sidecars)
    (accepted : L.Accepted file sidecars) (scanned : L.AllScanned)
    (plainEnum : ∀ d ∈ L.definitions, d.PlainEnum) :
    ∀ᶠ fuel in atTop, ParsedAs L sidecars
      (MessageCreator.createMessages { file := file, tokens := L.tokens, sidecars := sidecars } fuel 0) := by
  obtain ⟨ok, distinct⟩ := accepted
  obtain ⟨P, hP⟩ := exists_of_isOk ok
  let mc : MessageCreator := { file := file, tokens := L.tokens, sidecars := sidecars }
  have top : MessageCreator.AtTop mc (mc.begin 0) L.tokens :=
    ⟨rfl, rfl, rfl, rfl, [], [], rfl, rfl, rfl, fun t ht => absurd ht (by simp), fun t ht => by simp at ht⟩
  obtain ⟨mc', s', run, h', parsed, hfile⟩ :=
    MessageCreator.reaches_end L top scanned plainEnum hP
  have done : s'.endPos ≤ s'.i := by
    obtain ⟨before, lines, tokens, i, _⟩ := h'.lines
    rw [h'.endPos, tokens, i]
    simp
  obtain ⟨names, files⟩ := addAll_names hP (fun m hm => by simp at hm)
  have messages : mc'.messages = P.messages := congrArg Parsed.messages parsed
  have unique : mc'.allUnique = none :=
    allUnique_of_nodup (by rw [messages]; exact files) (by rw [messages, names]; simpa using distinct)
  refine (run _ (MessageCreator.ends_end done)).mono fun fuel hf => ?_
  rw [MessageCreator.createMessages, hf, unique]
  refine ⟨rfl, L.definitions, List.Perm.refl _, fun d hd d' hd' => definitions_nested hd hd', ?_⟩
  simp only
  rw [hfile, parsed]
  exact hP

def newlineToken : Token := .of .NEWLINE "\n"

def headerOf (modifiers : List Token) (name : String)
    (plain : ∀ t ∈ modifiers, t.kind.structural = false) : Header where
  modifiers := modifiers
  keyword := .of .MESSAGE "message "
  name := .of .ID name
  lbrace := .of .LBRACE "\x7b"
  newline := newlineToken
  modifiers_plain := plain
  keyword_kind := Or.inl rfl
  name_kind := rfl
  lbrace_kind := rfl
  newline_kind := rfl

def Line.ofContent (content : List Token) (plain : ∀ t ∈ content, t.kind.structural = false) : Line where
  content := content
  newline := newlineToken
  content_plain := plain
  newline_kind := rfl

def closingOf (table : String) : Closing where
  rbrace := .of .RBRACE "\x7d"
  tail := [.of .ID table, .of .PCOMMA ";"]
  newline := newlineToken
  rbrace_kind := rfl
  tail_plain := by simp [Token.of, TokenKind.structural]
  newline_kind := rfl

def nameField : Line :=
  Line.ofContent [.of .STRING "string", .of .ID "name", .of .PCOMMA ";"] (by decide)

def noSidecars : Sidecars := fun _ => none

/-- `event message vip_users` nested in `event message top_users`, before a field of its type. -/
def topUsers : Layout :=
  .definition (headerOf [.of .EVENT "event "] "top_users" (by decide))
    (.line nameField
      (.definition (headerOf [.of .EVENT "event "] "vip_users" (by decide)) (.line nameField .nil)
        (closingOf "table_vip_users")
        (.line (Line.ofContent [.of .ID "vip_users", .of .ID "myUsers", .of .PCOMMA ";"] (by decide)) .nil)))
    (closingOf "user_table") .nil

theorem createMessages_topUsers :
    ∀ᶠ fuel in atTop, ParsedAs topUsers noSidecars (MessageCreator.createMessages
      { file := "test.harpia", tokens := topUsers.tokens, sidecars := noSidecars } fuel 0) :=
  createMessages_layout topUsers "test.harpia" noSidecars ⟨by decide +kernel, by decide +kernel⟩
    (by simp [topUsers, Layout.AllScanned, Layout.Scanned, Line.ofContent, Line.tokens, headerOf])
    (by decide +kernel)

/-- `stream pull message inner` nested at the very end of `message outer`: the brace of `outer` is
jumped over and the tokens run out. -/
def innerLast : Layout :=
  .definition (headerOf [] "outer" (by decide))
    (.line nameField
      (.definition (headerOf [.of .STREAM "stream ", .of .PULL "pull "] "inner" (by decide))
        (.line nameField .nil) (closingOf "inner_table") .nil))
    (closingOf "outer_table") .nil

theorem not_createMessages_innerLast :
    ¬ ∀ (L : Layout) (file : String) (sidecars : Sidecars), L.Accepted file sidecars →
      ∀ᶠ fuel in atTop, ParsedAs L sidecars
        (MessageCreator.createMessages { file := file, tokens := L.tokens, sidecars := sidecars } fuel 0) := by
  intro h
  let mc : MessageCreator := { file := "test.harpia", tokens := innerLast.tokens, sidecars := noSidecars }
  have claimed := h innerLast "test.harpia" noSidecars ⟨by decide +kernel, by decide +kernel⟩
  have raises : (mc.loop 60 false (mc.begin 0)).1 = .raised := by decide +kernel
  have stopped : (mc.loop 60 false (mc.begin 0)).1 ≠ .exhausted := by
    rw [raises]
    simp
  have ends := MessageCreator.ends_of_loop stopped
  obtain ⟨fuel, parsed, ended⟩ := (claimed.and ends).exists
  have returned : (mc.loop fuel false (mc.begin 0)).1 = .returned none := parsed.1
  rw [ended, raises] at returned
  cases returned

/-- A nested call may jump over the keyword of `second`, take the definition for its own and leave;
the call around it then starts over on `middle`. -/
def startedOver : Layout :=
  .definition (headerOf [] "outer" (by decide))
    (.definition (headerOf [] "middle" (by decide))
      (.definition (headerOf [.of .EVENT "event "] "first" (by decide)) .nil (closingOf "t1")
        (.definition (headerOf [] "second" (by decide)) .nil (closingOf "t2") .nil))
      (closingOf "t3") .nil)
    (closingOf "t4") .nil

example : ¬ startedOver.AllScanned ∧
    ((MessageCreator.createMessages
      { file := "test.harpia", tokens := startedOver.tokens, sidecars := noSidecars } 100 0).2.messages.map
        ParsedMessage.name) = ["first", "second", "middle", "outer"] :=
  ⟨by simp [startedOver, Layout.AllScanned, Layout.Scanned, headerOf, Token.of], by decide +kernel⟩

end Harpia
