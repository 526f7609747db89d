import Harpia.LayoutProcess
import Mathlib.Order.Filter.AtTopBot.Basic

namespace Harpia

open Filter

/-- `Scanned` when the skip ends before the closing brace. -/
def Layout.Clear (skipped : Nat) : Layout → Prop
  | .nil => skipped = 0
  | .line l rest => rest.Clear (skipped - l.tokens.length)
  | .definition h body _ rest =>
    skipped ≤ h.modifiers.length ∧ body.Scanned 0 ∧ rest.Scanned h.modifiers.length

/-- Otherwise the skip ends right at the brace, with plain lines before it. -/
theorem Layout.Scanned.clear {L : Layout} {skipped : Nat} (h : L.Scanned skipped) :
    L.Clear skipped ∨ L.definitions = [] ∧ (∀ read, L.own read = read ++ L.tokens) ∧
      skipped = L.tokens.length + 1 := by
  induction L generalizing skipped with
  | nil =>
    rcases Nat.le_one_iff_eq_zero_or_eq_one.mp h with rfl | rfl
    · exact Or.inl rfl
    · exact Or.inr ⟨rfl, fun read => (List.append_nil read).symm, rfl⟩
  | line l rest ih =>
    rcases ih h with clear | ⟨none, own, count⟩
    · exact Or.inl clear
    · refine Or.inr ⟨none, fun read => ?_, ?_⟩
      · exact (own (read ++ l.tokens)).trans (List.append_assoc _ _ _)
      · rw [tokens, List.length_append]
        omega
  | definition header body closing rest _ _ => exact Or.inl h

theorem Layout.Scanned.clear_zero {L : Layout} (h : L.Scanned 0) : L.Clear 0 :=
  h.clear.resolve_right fun last => absurd last.2.2 (by omega)

theorem Inert.token {ts : List Token} (inert : Inert ts) {n : Nat} (hlt : n < ts.length) :
    ∃ t, ts[n]? = some t ∧ t.kind ≠ .RBRACE := by
  refine ⟨ts[n], List.getElem?_eq_getElem hlt, fun rbrace => ?_⟩
  have := inert _ (List.getElem_mem hlt)
  simp [rbrace, TokenKind.structural] at this

theorem Layout.Clear.token {L : Layout} {skipped : Nat} (h : L.Clear (skipped + 1)) :
    ∃ t, L.tokens[skipped]? = some t ∧ t.kind ≠ .RBRACE := by
  induction L generalizing skipped with
  | nil => cases h
  | line l rest ih =>
    rw [tokens]
    by_cases hlt : skipped < l.tokens.length
    · rw [List.getElem?_append_left hlt]
      exact l.inert.token hlt
    · rw [List.getElem?_append_right (by omega)]
      have hrest : skipped + 1 - l.tokens.length = skipped - l.tokens.length + 1 := by omega
      exact ih (hrest ▸ h)
  | definition header body closing rest _ _ =>
    have hlt : skipped < header.modifiers.length := h.1
    have hm : (Layout.definition header body closing rest).tokens[skipped]? =
        header.modifiers[skipped]? := by
      simp only [tokens, Header.tokens, Header.opening, List.append_assoc]
      exact List.getElem?_append_left hlt
    rw [hm]
    exact (inert_of_plain header.modifiers_plain).token hlt

namespace MessageCreator

/-- The call ends so, given rounds enough. -/
def Ends (isInternal : Bool) (mc : MessageCreator) (s : Scan) (r : Outcome × MessageCreator) : Prop :=
  ∀ᶠ fuel in atTop, mc.loop fuel isInternal s = r

/-- The call gets from one state of its scan to another: it ends as the second does. -/
def Reaches (isInternal : Bool) (mc : MessageCreator) (s : Scan) (mc' : MessageCreator)
    (s' : Scan) : Prop :=
  ∀ r, Ends isInternal mc' s' r → Ends isInternal mc s r

theorem Reaches.trans {b : Bool} {mc mc' mc'' : MessageCreator} {s s' s'' : Scan}
    (h : Reaches b mc s mc' s') (h' : Reaches b mc' s' mc'' s'') : Reaches b mc s mc'' s'' :=
  fun r hr => h r (h' r hr)

theorem eventually_succ {p : Nat → Prop} (h : ∀ᶠ fuel in atTop, p (fuel + 1)) :
    ∀ᶠ fuel in atTop, p fuel := by
  rw [← map_add_atTop_eq_nat 1]
  exact eventually_map.mpr h

/-- A round that starts no internal call. -/
def Quiet (s : Scan) (t : Token) : Prop :=
  ¬ ((t.kind = .ENUM ∨ t.kind = .MESSAGE) ∧ (s.mark t.kind).startMessage.isSome)

theorem loop_quiet {b : Bool} {mc : MessageCreator} {s : Scan} {t : Token} (fuel : Nat)
    (bound : s.i < s.endPos) (ht : mc.tokens[s.i]? = some t) (quiet : Quiet s t) :
    mc.loop (fuel + 1) b s =
      match mc.advance b (s.mark t.kind) with
      | (.error stopped, mc) => (stopped, mc)
      | (.ok s, mc) => mc.loop fuel b s := by
  rw [loop, if_pos bound, ht]
  simp only
  rewrite [if_neg quiet]
  rfl

theorem reaches_quiet {b : Bool} {mc mc' : MessageCreator} {s s' : Scan} {t : Token}
    (bound : s.i < s.endPos) (ht : mc.tokens[s.i]? = some t) (quiet : Quiet s t)
    (next : mc.advance b (s.mark t.kind) = (.ok s', mc')) : Reaches b mc s mc' s' := by
  intro r hr
  refine eventually_succ (hr.mono fun fuel hf => ?_)
  rw [loop_quiet fuel bound ht quiet, next]
  exact hf

theorem ends_quiet {b : Bool} {mc mc' : MessageCreator} {s : Scan} {t : Token} {o : Outcome}
    (bound : s.i < s.endPos) (ht : mc.tokens[s.i]? = some t) (quiet : Quiet s t)
    (stop : mc.advance b (s.mark t.kind) = (.error o, mc')) : Ends b mc s (o, mc') := by
  refine eventually_succ (Eventually.of_forall fun fuel => ?_)
  rw [loop_quiet fuel bound ht quiet, stop]

/-- A keyword inside a message: the internal call runs first. -/
theorem reaches_call {b : Bool} {mc mc' mc'' : MessageCreator} {s s' : Scan} {t : Token}
    (bound : s.i < s.endPos) (ht : mc.tokens[s.i]? = some t)
    (keyword : t.kind = .MESSAGE ∨ t.kind = .ENUM) (started : s.startMessage.isSome)
    (call : Ends true mc (mc.begin s.curNewLine) (.returned none, mc'))
    (next : mc'.advance b { s with endOfBody := none, endOfMessage := none, i := s.i - 1 } =
      (.ok s', mc'')) : Reaches b mc s mc'' s' := by
  have mark : s.mark t.kind = s := by
    rcases keyword with h | h <;> rw [h] <;> rfl
  intro r hr
  refine eventually_succ ((call.and hr).mono fun fuel hf => ?_)
  rw [loop, if_pos bound, ht]
  simp only [mark]
  rw [if_pos ⟨keyword.symm, started⟩, hf.1]
  simp only [next]
  exact hf.2

theorem loop_succ (n : Nat) {b : Bool} {mc : MessageCreator} {s : Scan}
    (h : (mc.loop n b s).1 ≠ .exhausted) : mc.loop (n + 1) b s = mc.loop n b s := by
  induction n generalizing b mc s with
  | zero => exact absurd rfl h
  | succ n ih =>
    -- the rest of a round, after any internal call
    have rest : ∀ {mc : MessageCreator} {s : Scan},
        (match mc.advance b s with
          | (.error stopped, mc) => (stopped, mc)
          | (.ok s, mc) => mc.loop n b s).1 ≠ Outcome.exhausted →
        (match mc.advance b s with
          | (.error stopped, mc) => (stopped, mc)
          | (.ok s, mc) => mc.loop (n + 1) b s) =
        match mc.advance b s with
          | (.error stopped, mc) => (stopped, mc)
          | (.ok s, mc) => mc.loop n b s := by
      intro mc s h
      rcases ha : mc.advance b s with ⟨stopped | s', mc'⟩
      · rfl
      · rw [ha] at h
        exact ih h
    rw [loop] at h ⊢
    conv_rhs => rw [loop]
    by_cases inside : s.i < s.endPos
    · rw [if_pos inside] at h ⊢
      rw [if_pos inside]
      cases ht : mc.tokens[s.i]? with
      | none => rfl
      | some t =>
        simp only [ht] at h ⊢
        by_cases entered : (t.kind = .ENUM ∨ t.kind = .MESSAGE) ∧ (s.mark t.kind).startMessage.isSome
        · rw [if_pos entered] at h ⊢
          rw [if_pos entered]
          have call := @ih true mc (mc.begin (s.mark t.kind).curNewLine)
          rcases hc : mc.loop n true (mc.begin (s.mark t.kind).curNewLine) with
            ⟨_ | _ | _ | err, mc'⟩ <;> rw [hc] at h call
          · exact absurd rfl h
          · rw [call (by simp)]
          · rw [call (by simp)]
            exact rest h
          · rw [call (by simp)]
        · rw [if_neg entered] at h ⊢
          rw [if_neg entered]
          exact rest h
    · rw [if_neg inside, if_neg inside]

theorem ends_of_loop {n : Nat} {b : Bool} {mc : MessageCreator} {s : Scan}
    (h : (mc.loop n b s).1 ≠ .exhausted) : Ends b mc s (mc.loop n b s) := by
  refine eventually_atTop.mpr ⟨n, fun m hm => ?_⟩
  induction m, hm using Nat.le_induction with
  | base => rfl
  | succ m _ ih => rw [loop_succ m (by rw [ih]; exact h), ih]

/-- No message is complete before the line end after its closing brace. -/
theorem close_open (b : Bool) (mc : MessageCreator) {s : Scan} (open_ : s.endOfMessage = none) :
    mc.close b s = (.ok s, mc) := by
  have extent : s.extent = none := by
    unfold Scan.extent
    rw [open_]
    cases s.startMessage <;> rfl
  rw [close, extent]

theorem advance_open (b : Bool) {mc : MessageCreator} {s : Scan} {t : Token}
    (ht : mc.tokens[s.i]? = some t) (other : t.kind ≠ .RBRACE) (open_ : s.endOfMessage = none) :
    mc.advance b s = (.ok { s with i := s.i + 1 }, mc) := by
  rw [advance, ht]
  simp only
  rw [if_neg other, close_open b mc open_]

theorem advance_rbrace (b : Bool) {mc : MessageCreator} {s : Scan} {t : Token}
    (ht : mc.tokens[s.i]? = some t) (rbrace : t.kind = .RBRACE) (open_ : s.endOfMessage = none) :
    mc.advance b s = (.ok { s with endOfBody := some s.i, i := s.i + 1 }, mc) := by
  have inside : mc.tokens.length ≠ s.i := by
    have := (List.getElem?_eq_some_iff.mp ht).1
    omega
  rw [advance, ht]
  simp only
  rw [if_pos rbrace, if_neg inside, close_open b mc (s := { s with endOfBody := some s.i }) open_]

theorem quiet_of_structural {s : Scan} {t : Token}
    (ht : t.kind = .NEWLINE ∨ t.kind.structural = false) : Quiet s t := by
  rintro ⟨h | h, _⟩ <;> simp [h, TokenKind.structural] at ht

theorem mark_plain {s : Scan} {t : Token} (ht : t.kind.structural = false) : s.mark t.kind = s := by
  obtain ⟨kind, lexeme, line, col⟩ := t
  cases kind <;> first | rfl | cases ht

/-- One inert token; a line end must come before the closing brace. -/
theorem reaches_token {b : Bool} {mc : MessageCreator} {s : Scan} {t : Token}
    (ht : mc.tokens[s.i]? = some t) (hkind : t.kind = .NEWLINE ∨ t.kind.structural = false)
    (bound : mc.tokens.length ≤ s.endPos) (body : t.kind = .NEWLINE → s.endOfBody = none)
    (open_ : s.endOfMessage = none) :
    Reaches b mc s mc { s with
      curNewLine := if t.kind = .NEWLINE then s.i else s.curNewLine
      i := s.i + 1 } := by
  have hlt : s.i < s.endPos := by
    have := (List.getElem?_eq_some_iff.mp ht).1
    omega
  have other : t.kind ≠ .RBRACE := by
    intro h
    simp [h, TokenKind.structural] at hkind
  have mark : s.mark t.kind =
      { s with curNewLine := if t.kind = .NEWLINE then s.i else s.curNewLine } := by
    rcases hkind with newline | plain
    · simp [Scan.mark, newline, body newline]
    · have hne : t.kind ≠ .NEWLINE := by
        intro h
        simp [h, TokenKind.structural] at plain
      rw [mark_plain plain, if_neg hne]
  have := reaches_quiet (b := b) hlt ht (quiet_of_structural hkind)
    (advance_open b (s := s.mark t.kind) (by rw [mark]; exact ht) other (by rw [mark]; exact open_))
  rwa [mark] at this

/-- A run over inert tokens before the closing brace only moves the line mark. -/
theorem reaches_inert {b : Bool} {mc : MessageCreator} {s : Scan} (before ts after : List Token)
    (tokens : mc.tokens = before ++ (ts ++ after)) (inert : Inert ts) (i : s.i = before.length)
    (bound : mc.tokens.length ≤ s.endPos) (body : s.endOfBody = none)
    (open_ : s.endOfMessage = none) :
    Reaches b mc s mc { s with
      i := before.length + ts.length
      curNewLine := (Processing.lineMark (some s.curNewLine) ts before.length).getD 0 } := by
  induction ts generalizing before s with
  | nil =>
    intro r hr
    simpa [Processing.lineMark, ← i] using hr
  | cons t ts ih =>
    have ht : mc.tokens[s.i]? = some t := by simp [tokens, i]
    refine (reaches_token ht (inert t (by simp)) bound (fun _ => body) open_).trans ?_
    have rest := ih (before ++ [t])
      (s := { s with
        curNewLine := if t.kind = .NEWLINE then s.i else s.curNewLine, i := s.i + 1 })
      (by simp [tokens]) (fun t h => inert t (List.mem_cons_of_mem _ h)) (by simp [i]) bound body open_
    have count : (before ++ [t]).length + ts.length = before.length + (t :: ts).length := by
      simp
      omega
    have hcur : (if t.kind = .NEWLINE then some before.length else some s.curNewLine) =
        some (if t.kind = .NEWLINE then s.i else s.curNewLine) := by
      rw [i]
      split_ifs <;> rfl
    rw [count] at rest
    simpa [Processing.lineMark, hcur] using rest

theorem reaches_plain {b : Bool} {mc : MessageCreator} {s : Scan} (before ts after : List Token)
    (tokens : mc.tokens = before ++ (ts ++ after)) (plain : ∀ t ∈ ts, t.kind.structural = false)
    (i : s.i = before.length) (bound : mc.tokens.length ≤ s.endPos) (open_ : s.endOfMessage = none) :
    Reaches b mc s mc { s with i := before.length + ts.length } := by
  induction ts generalizing before s with
  | nil =>
    intro r hr
    simpa [← i] using hr
  | cons t ts ih =>
    have ht : mc.tokens[s.i]? = some t := by simp [tokens, i]
    have hkind := plain t (by simp)
    have hne : t.kind ≠ .NEWLINE := by
      intro h
      simp [h, TokenKind.structural] at hkind
    have first := reaches_token (b := b) ht (Or.inr hkind) bound (fun h => absurd h hne) open_
    rw [if_neg hne] at first
    have rest := ih (before ++ [t]) (s := { s with i := s.i + 1 })
      (by simp [tokens]) (fun t h => plain t (List.mem_cons_of_mem _ h)) (by simp [i]) bound open_
    have count : (before ++ [t]).length + ts.length = before.length + (t :: ts).length := by
      simp
      omega
    rw [count] at rest
    exact first.trans rest

/-- A call inside a definition's body, at the end of `read` and `skipped` tokens into what is left:
the opening brace is behind it, and whole lines are all that stands after the line mark. -/
structure InBody (mc : MessageCreator) (s : Scan) (start skipped : Nat) (read left : List Token) :
    Prop where
  tokens : mc.tokens = read ++ left
  i : s.i = read.length + skipped
  started : s.startMessage = some start
  body : s.endOfBody = none
  message : s.endOfMessage = none
  bound : mc.tokens.length ≤ s.endPos
  lines : ∃ before lines, read = before ++ lines ∧ s.curNewLine = before.length ∧ Inert lines ∧
    lines ≠ [] ∧ WholeLines lines

/-- The call is past the closing brace that follows what it read. -/
structure AfterBody (mc : MessageCreator) (s : Scan) (start : Nat) (read left : List Token) :
    Prop where
  tokens : mc.tokens = read ++ left
  i : s.i = read.length + 1
  started : s.startMessage = some start
  body : s.endOfBody.isSome
  message : s.endOfMessage = none
  bound : mc.tokens.length ≤ s.endPos

/-- A plain line, or the rest of it where the call skips its front. -/
theorem inBody_line {b : Bool} {mc : MessageCreator} {s : Scan} {start skipped : Nat}
    {read left : List Token} {l : Line} (h : InBody mc s start skipped read (l.tokens ++ left)) :
    ∃ s', Reaches b mc s mc s' ∧
      InBody mc s' start (skipped - l.tokens.length) (read ++ l.tokens) left := by
  have tokens : mc.tokens = read ++ l.tokens ++ left := by rw [h.tokens, List.append_assoc]
  by_cases hskip : l.tokens.length ≤ skipped
  · obtain ⟨before, lines, hread, hcur, inert, _, whole⟩ := h.lines
    refine ⟨s, fun r hr => hr, tokens, ?_, h.started, h.body, h.message, h.bound,
      before, lines ++ l.tokens, ?_, hcur, inert.append l.inert, ?_, whole.append l.wholeLines⟩
    · rw [h.i, List.length_append]
      omega
    · rw [hread, List.append_assoc]
    · simp [l.tokens_ne_nil]
  · have hlt : skipped < l.tokens.length := by omega
    have cut : mc.tokens = (read ++ l.tokens.take skipped) ++ (l.tokens.drop skipped ++ left) := by
      rw [h.tokens, List.append_assoc, ← List.append_assoc (l.tokens.take skipped),
        List.take_append_drop]
    have front : (read ++ l.tokens.take skipped).length = read.length + skipped := by
      rw [List.length_append, List.length_take]
      omega
    have whole := l.wholeLines.drop hlt
    have hne : l.tokens.drop skipped ≠ [] := by
      rw [Ne, List.drop_eq_nil_iff]
      omega
    have run := reaches_inert (b := b) _ _ _ cut (fun t ht => l.inert t (List.mem_of_mem_drop ht))
      (h.i.trans front.symm) h.bound h.body h.message
    rw [Processing.lineMark_wholeLines whole hne, front, List.length_drop] at run
    refine ⟨_, run, tokens, ?_, h.started, h.body, h.message, h.bound,
      read ++ l.content, [l.newline], ?_, ?_, inert_newline l.newline_kind, by simp, ?_⟩
    · simp only [List.length_append]
      omega
    · rw [List.append_assoc]
      rfl
    · simp only [Line.tokens, List.length_append, List.length_singleton, Option.getD_some] at hlt ⊢
      omega
    · intro t ht
      rw [List.getLast?_singleton, Option.mem_some_iff] at ht
      exact ht ▸ l.newline_kind

theorem token_at {ts : List Token} (before after : List Token) {t : Token} {i : Nat}
    (h : ts = before ++ t :: after) (hi : i = before.length) : ts[i]? = some t := by
  simp [h, hi]

theorem mark_keyword {s : Scan} {t : Token} (h : t.kind = .MESSAGE ∨ t.kind = .ENUM) :
    s.mark t.kind = s := by
  rcases h with h | h <;> rw [h] <;> rfl

theorem inBody_header {b : Bool} {mc : MessageCreator} {s : Scan} (before left : List Token)
    (h : Header) (tokens : mc.tokens = before ++ (h.tokens ++ left)) (i : s.i = before.length)
    (outside : s.startMessage = none) (body : s.endOfBody = none) (message : s.endOfMessage = none)
    (bound : mc.tokens.length ≤ s.endPos) :
    ∃ s', Reaches b mc s mc s' ∧ InBody mc s' s.curNewLine 0 (before ++ h.tokens) left := by
  obtain ⟨n, hn⟩ : ∃ n, n = before.length + h.modifiers.length := ⟨_, rfl⟩
  have inside : n + 3 < s.endPos := by
    simp only [tokens, Header.tokens, Header.opening, List.length_append, List.length_cons,
      List.length_nil] at bound
    omega
  have hkeyword : mc.tokens[n]? = some h.keyword :=
    token_at (before ++ h.modifiers) (h.name :: h.lbrace :: h.newline :: left)
      (by simp [tokens, Header.tokens, Header.opening]) (by simp [hn])
  have hname : mc.tokens[n + 1]? = some h.name :=
    token_at (before ++ h.modifiers ++ [h.keyword]) (h.lbrace :: h.newline :: left)
      (by simp [tokens, Header.tokens, Header.opening]) (by simp [hn, Nat.add_assoc])
  have hlbrace : mc.tokens[n + 2]? = some h.lbrace :=
    token_at (before ++ h.modifiers ++ [h.keyword, h.name]) (h.newline :: left)
      (by simp [tokens, Header.tokens, Header.opening]) (by simp [hn, Nat.add_assoc])
  have hnewline : mc.tokens[n + 3]? = some h.newline :=
    token_at (before ++ h.opening) left
      (by simp [tokens, Header.tokens]) (by simp [Header.opening, hn, Nat.add_assoc])
  have modifiers := reaches_plain (b := b) before h.modifiers
    (h.keyword :: h.name :: h.lbrace :: h.newline :: left)
    (by simp [tokens, Header.tokens, Header.opening]) h.modifiers_plain i bound message
  rw [← hn] at modifiers
  have keyword := reaches_quiet (b := b) (s := { s with i := n }) (by simp only; omega) hkeyword
    (by rw [Quiet, mark_keyword h.keyword_kind, outside]; simp)
    (advance_open b (by rw [mark_keyword h.keyword_kind]; exact hkeyword)
      (by rcases h.keyword_kind with hk | hk <;> simp [hk])
      (by rw [mark_keyword h.keyword_kind]; exact message))
  rw [mark_keyword h.keyword_kind] at keyword
  have name := reaches_token (b := b) (s := { s with i := n + 1 }) hname
    (Or.inr (by rw [h.name_kind]; rfl)) bound (fun hk => absurd (h.name_kind.symm.trans hk) (by simp))
    message
  rw [if_neg (by rw [h.name_kind]; simp)] at name
  have mark : Scan.mark { s with i := n + 2 } h.lbrace.kind =
      { s with i := n + 2, startMessage := some s.curNewLine } := by
    rw [h.lbrace_kind]
    rfl
  have lbrace := reaches_quiet (b := b) (s := { s with i := n + 2 }) (by simp only; omega) hlbrace
    (by rw [Quiet, h.lbrace_kind]; simp)
    (advance_open b (by rw [mark]; exact hlbrace) (by simp [h.lbrace_kind]) (by rw [mark]; exact message))
  rw [mark] at lbrace
  have newline := reaches_token (b := b)
    (s := { s with i := n + 3, startMessage := some s.curNewLine }) hnewline (Or.inl h.newline_kind)
    bound (fun _ => body) message
  rw [if_pos h.newline_kind] at newline
  refine ⟨_, modifiers.trans (keyword.trans (name.trans (lbrace.trans newline))), ?_, ?_, rfl, body,
    message, bound, before ++ h.opening, [h.newline], ?_, ?_, inert_newline h.newline_kind, by simp, ?_⟩
  · rw [tokens, List.append_assoc]
  · simp only [Header.tokens, Header.opening, List.length_append, List.length_cons, List.length_nil]
    omega
  · rw [List.append_assoc]
    rfl
  · simp only [Header.opening, List.length_append, List.length_cons, List.length_nil]
    omega
  · intro t ht
    rw [List.getLast?_singleton, Option.mem_some_iff] at ht
    exact ht ▸ h.newline_kind

theorem advance_complete (b : Bool) {mc : MessageCreator} {s : Scan} {t : Token} {start : Nat}
    (ht : mc.tokens[s.i]? = some t) (newline : t.kind = .NEWLINE) (started : s.startMessage = some start)
    (body : s.endOfBody.isSome) {m : ParsedMessage} {sidecars : Sidecars}
    (processed : Message.process mc.file mc.availableMessages mc.sidecars (slice mc.tokens start s.i) =
      .ok (m, sidecars)) :
    mc.advance b (s.mark t.kind) =
      if b then (.error (.returned none), mc.store m sidecars start s.i)
      else (.ok {
        i := s.i - (s.i - start) + 1
        endPos := (mc.store m sidecars start s.i).tokens.length },
        mc.store m sidecars start s.i) := by
  have mark : s.mark t.kind = { s with curNewLine := s.i, endOfMessage := some s.i } := by
    simp [Scan.mark, newline, body]
  have extent : Scan.extent { s with curNewLine := s.i, endOfMessage := some s.i } =
      some (start, s.i) := by
    obtain ⟨endOfBody, hb⟩ := Option.isSome_iff_exists.mp body
    simp [Scan.extent, started, hb]
  have other : ¬ t.kind = .RBRACE := by simp [newline]
  rw [mark, advance, ht]
  simp only
  rw [if_neg other, close, extent]
  simp only
  rw [processed]
  cases b <;> rfl

/-- The call is at the last line end of a definition whose nested definitions are gone. -/
structure AtLineEnd (mc : MessageCreator) (s : Scan) (before : List Token) (d : Definition)
    (left : List Token) : Prop where
  tokens : mc.tokens = before ++ (d.closing.newline :: left)
  i : s.i = before.length
  body : s.endOfBody.isSome
  message : s.endOfMessage = none
  bound : mc.tokens.length ≤ s.endPos

theorem atLineEnd_of_afterBody {b : Bool} {mc : MessageCreator} {s : Scan} {start : Nat}
    {read left : List Token} {d : Definition}
    (h : AfterBody mc s start read (d.closing.tokens ++ left)) :
    ∃ s', Reaches b mc s mc s' ∧ s'.startMessage = some start ∧
      AtLineEnd mc s' (read ++ d.closing.rbrace :: d.closing.tail) d left := by
  have run := reaches_plain (b := b) (read ++ [d.closing.rbrace]) d.closing.tail
    (d.closing.newline :: left) (by simp [h.tokens, Closing.tokens]) d.closing.tail_plain
    (by simp [h.i]) h.bound h.message
  refine ⟨_, run, h.started, ?_, ?_, h.body, h.message, h.bound⟩
  · simp [h.tokens, Closing.tokens]
  · simp
    omega

/-- The body of a definition runs: the nested definitions are stored and cut out, and the call stops
behind the closing brace. -/
def BodyRuns (L : Layout) : Prop :=
  ∀ {b : Bool} {mc : MessageCreator} {s : Scan} {start skipped : Nat} {read left : List Token}
    {P : Parsed}, InBody mc s start skipped read (L.tokens ++ left) →
    (∃ t ∈ left.head?, t.kind = .RBRACE) → L.Clear skipped → (∀ d ∈ L.definitions, d.PlainEnum) →
    mc.toParsed.addAll mc.file L.definitions = .ok P →
    ∃ mc' s', Reaches b mc s mc' s' ∧ AfterBody mc' s' start (L.own read) left ∧
      mc'.toParsed = P ∧ mc'.file = mc.file

theorem reaches_lineEnd {b : Bool} {mc : MessageCreator} {s : Scan} (before lead left : List Token)
    (d : Definition) {P : Parsed} (hb : BodyRuns d.body)
    (tokens : mc.tokens = before ++ (lead ++ (d.tokens ++ left)))
    (i : s.i = (before ++ lead).length) (cur : s.curNewLine = before.length)
    (outside : s.startMessage = none) (body : s.endOfBody = none) (message : s.endOfMessage = none)
    (bound : mc.tokens.length ≤ s.endPos) (clear : d.body.Clear 0)
    (plainEnum : ∀ d' ∈ d.body.definitions, d'.PlainEnum)
    (accepted : mc.toParsed.addAll mc.file d.body.definitions = .ok P) :
    ∃ mc' s', Reaches b mc s mc' s' ∧ s'.startMessage = some before.length ∧
      AtLineEnd mc' s' (before ++ (lead ++ d.slice)) d left ∧ mc'.toParsed = P ∧
      mc'.file = mc.file := by
  obtain ⟨s₁, run₁, inBody⟩ := inBody_header (b := b) (before ++ lead)
    (d.body.tokens ++ (d.closing.tokens ++ left)) d.header
    (by simp [tokens, Definition.tokens]) i outside body message bound
  obtain ⟨mc', s₂, run₂, after, parsed, file⟩ := hb (b := b) inBody
    ⟨d.closing.rbrace, by simp [Closing.tokens], d.closing.rbrace_kind⟩ clear plainEnum accepted
  obtain ⟨s₃, run₃, started, lineEnd⟩ := atLineEnd_of_afterBody (b := b) after
  have own : d.body.own (before ++ lead ++ d.header.tokens) ++ d.closing.rbrace :: d.closing.tail =
      before ++ (lead ++ d.slice) := by
    have hread : before ++ lead ++ d.header.tokens =
        (before ++ lead ++ d.header.opening) ++ [d.header.newline] := by
      simp [Header.tokens]
    rw [hread, d.body.own_append _ (by simp), Definition.slice]
    simp
  rw [own] at lineEnd
  exact ⟨mc', s₃, run₁.trans (run₂.trans run₃), cur ▸ started, lineEnd, parsed, file⟩

theorem store_lineEnd {mc : MessageCreator} {s : Scan} {before lead left : List Token}
    {d : Definition} {P : Parsed} (h : AtLineEnd mc s (before ++ (lead ++ d.slice)) d left)
    (plainEnum : d.PlainEnum) (inert : Inert lead) (whole : WholeLines lead)
    (accepted : mc.toParsed.add mc.file d = .ok P) :
    ∃ m sidecars, Message.process mc.file mc.availableMessages mc.sidecars
        (slice mc.tokens before.length s.i) = .ok (m, sidecars) ∧
      (mc.store m sidecars before.length s.i).tokens = before ++ (d.closing.newline :: left) ∧
      (mc.store m sidecars before.length s.i).toParsed = P := by
  obtain ⟨⟨m, sidecars⟩, hm, hP⟩ := bind_eq_ok.mp accepted
  have i : s.i = before.length + (lead ++ d.slice).length := by rw [h.i, List.length_append]
  have tokens := h.tokens
  rw [List.append_assoc] at tokens
  have cut : slice mc.tokens before.length s.i = lead ++ d.slice := by
    rw [tokens, i]
    exact slice_append _ _ _
  refine ⟨m, sidecars, ?_, ?_, ?_⟩
  · rw [cut]
    exact process_definition plainEnum inert whole hm
  · have stop : max before.length s.i = (before ++ (lead ++ d.slice)).length := by
      rw [i, ← List.length_append]
      exact max_eq_right (by simp)
    rw [store]
    simp only
    rw [stop, h.tokens, List.drop_left, List.append_assoc, List.take_left]
  · exact Except.ok.inj hP

theorem addAll_append_eq_ok {file : String} {p q : Parsed} {xs ys : List Definition} :
    p.addAll file (xs ++ ys) = .ok q ↔ ∃ p', p.addAll file xs = .ok p' ∧ p'.addAll file ys = .ok q := by
  rw [Parsed.addAll, List.foldlM_append]
  exact bind_eq_ok

theorem addAll_cons_eq_ok {file : String} {p q : Parsed} {d : Definition} {ds : List Definition} :
    p.addAll file (d :: ds) = .ok q ↔ ∃ p', p.add file d = .ok p' ∧ p'.addAll file ds = .ok q := by
  rw [Parsed.addAll, List.foldlM_cons]
  exact bind_eq_ok

theorem addAll_nil {file : String} {p q : Parsed} : p.addAll file [] = .ok q ↔ p = q :=
  ⟨fun h => Except.ok.inj h, fun h => congrArg Except.ok h⟩

/-- The last round of a definition: the line end is read with both marks set. -/
theorem lineEnd_quiet {mc : MessageCreator} {s : Scan} {before left : List Token} {d : Definition}
    (h : AtLineEnd mc s before d left) :
    s.i < s.endPos ∧ mc.tokens[s.i]? = some d.closing.newline ∧ Quiet s d.closing.newline := by
  have ht : mc.tokens[s.i]? = some d.closing.newline := token_at _ _ h.tokens h.i
  refine ⟨?_, ht, quiet_of_structural (Or.inl d.closing.newline_kind)⟩
  have := (List.getElem?_eq_some_iff.mp ht).1
  have := h.bound
  omega

/-- An internal call stores the definition it was started for, and the ones nested in it. -/
theorem definition_ends {mc : MessageCreator} {before lines left : List Token} {d : Definition}
    {P : Parsed} (hb : BodyRuns d.body)
    (tokens : mc.tokens = before ++ (lines ++ (d.tokens ++ left))) (inert : Inert lines)
    (hne : lines ≠ []) (whole : WholeLines lines) (scanned : d.body.Scanned 0)
    (plainEnum : ∀ d' ∈ d.body.definitions ++ [d], d'.PlainEnum)
    (accepted : mc.toParsed.addAll mc.file (d.body.definitions ++ [d]) = .ok P) :
    ∃ mc', Ends true mc (mc.begin before.length) (.returned none, mc') ∧
      mc'.tokens = (before ++ lines).dropLast ++ (d.closing.newline :: left) ∧
      mc'.toParsed = P ∧ mc'.file = mc.file := by
  obtain ⟨P', nested, last⟩ := addAll_append_eq_ok.mp accepted
  obtain ⟨Q, added, hQ⟩ := addAll_cons_eq_ok.mp last
  obtain rfl := addAll_nil.mp hQ
  have lead := reaches_inert (b := true) _ _ _ tokens inert (s := mc.begin before.length) rfl le_rfl rfl rfl
  rw [Processing.lineMark_wholeLines whole hne] at lead
  obtain ⟨init, newline, rfl⟩ := (List.eq_nil_or_concat' lines).resolve_left hne
  have hnewline : newline.kind = .NEWLINE := whole newline (by simp)
  obtain ⟨mc₁, s₁, run, started, lineEnd, parsed, file⟩ := reaches_lineEnd (b := true)
    (s := { mc.begin before.length with
      i := before.length + (init ++ [newline]).length
      curNewLine := (some (before.length + ((init ++ [newline]).length - 1))).getD 0 })
    (before ++ init) [newline] left d hb (by simp [tokens])
    (by simp) (by simp) rfl rfl rfl le_rfl scanned.clear_zero
    (fun d' h => plainEnum d' (List.mem_append_left _ h)) nested
  obtain ⟨m, sidecars, processed, htokens, hparsed⟩ := store_lineEnd (P := Q) lineEnd
    (plainEnum d (by simp)) (inert_newline hnewline)
    (fun t ht => by rw [List.getLast?_singleton, Option.mem_some_iff] at ht; exact ht ▸ hnewline)
    (by rw [parsed, file]; exact added)
  obtain ⟨bound, ht, quiet⟩ := lineEnd_quiet lineEnd
  have complete := advance_complete true ht d.closing.newline_kind started lineEnd.body processed
  rw [if_pos rfl] at complete
  refine ⟨_, lead _ (run _ (ends_quiet bound ht quiet complete)), ?_, hparsed, file⟩
  rw [htokens]
  simp [← List.append_assoc]

section Nested

variable {b : Bool} {mc : MessageCreator} {s : Scan} {start skipped : Nat} {read left : List Token}
  {P : Parsed} {header : Header} {body rest : Layout} {closing : Closing}

/-- The internal call stores a nested definition, which leaves its last line end in the lines before. -/
theorem nested_stored (hb : BodyRuns body)
    (inBody : InBody mc s start skipped read ((Layout.definition header body closing rest).tokens ++ left))
    (scanned : body.Scanned 0)
    (plainEnum : ∀ d ∈ body.definitions ++ [⟨header, body, closing⟩], d.PlainEnum)
    (accepted : mc.toParsed.addAll mc.file (body.definitions ++ [⟨header, body, closing⟩]) = .ok P) :
    ∃ mc', Ends true mc (mc.begin s.curNewLine) (.returned none, mc') ∧ mc'.toParsed = P ∧
      mc'.file = mc.file ∧ read.length = read.dropLast.length + 1 ∧
      ∀ n, InBody mc' { s with endOfBody := none, endOfMessage := none, i := read.length + n } start n
        (read.dropLast ++ [closing.newline]) (rest.tokens ++ left) := by
  obtain ⟨before, lines, hread, hcur, inert, hne, whole⟩ := inBody.lines
  let d : Definition := ⟨header, body, closing⟩
  have tokens : mc.tokens = before ++ (lines ++ (d.tokens ++ (rest.tokens ++ left))) := by
    rw [inBody.tokens, hread]
    simp [d, Layout.tokens, Definition.tokens]
  obtain ⟨mc', call, tokens', parsed, file⟩ :=
    definition_ends (d := d) hb tokens inert hne whole scanned plainEnum accepted
  rw [← hcur] at call
  have pos := List.length_pos_iff.mpr hne
  have length : read.length = read.dropLast.length + 1 := by
    rw [List.length_dropLast, hread, List.length_append]
    omega
  have cut : read.dropLast ++ [closing.newline] = before ++ (lines.dropLast ++ [closing.newline]) := by
    rw [hread, List.dropLast_append_of_ne_nil hne, List.append_assoc]
  have kept : mc'.tokens = (read.dropLast ++ [closing.newline]) ++ (rest.tokens ++ left) := by
    rw [tokens', ← hread, List.append_assoc]
    rfl
  have bound : mc'.tokens.length ≤ s.endPos := by
    have h₁ := congrArg List.length kept
    have h₂ := congrArg List.length inBody.tokens
    have := inBody.bound
    simp only [List.length_append, List.length_singleton, Layout.tokens] at h₁ h₂
    omega
  refine ⟨mc', call, parsed, file, length, fun n => ⟨kept, ?_, inBody.started, rfl, rfl, bound,
    before, lines.dropLast ++ [closing.newline], cut, hcur, ?_, by simp, ?_⟩⟩
  · rw [List.length_append, List.length_singleton, ← length]
  · exact Inert.append (fun t ht => inert t (List.mem_of_mem_dropLast ht))
      (inert_newline closing.newline_kind)
  · intro t ht
    rw [List.getLast?_concat, Option.mem_some_iff] at ht
    exact ht ▸ closing.newline_kind

/-- The modifiers of a nested header, from where the call goes on to the keyword. -/
theorem reaches_keyword
    (inBody : InBody mc s start skipped read ((Layout.definition header body closing rest).tokens ++ left))
    (reached : skipped ≤ header.modifiers.length) :
    Reaches b mc s mc { s with i := read.length + header.modifiers.length } ∧
      mc.tokens[read.length + header.modifiers.length]? = some header.keyword ∧
      read.length + header.modifiers.length < s.endPos := by
  have run := reaches_plain (b := b) (read ++ header.modifiers.take skipped) (header.modifiers.drop skipped)
    ([header.keyword, header.name, header.lbrace, header.newline] ++
      (body.tokens ++ (closing.tokens ++ (rest.tokens ++ left))))
    (by
      rw [List.append_assoc, ← List.append_assoc (header.modifiers.take skipped),
        List.take_append_drop, inBody.tokens]
      simp [Layout.tokens, Header.tokens, Header.opening])
    (fun t ht => header.modifiers_plain t (List.mem_of_mem_drop ht))
    (by rw [inBody.i, List.length_append, List.length_take, min_eq_left reached]) inBody.bound
    inBody.message
  have atKeyword : (read ++ header.modifiers.take skipped).length +
      (header.modifiers.drop skipped).length = read.length + header.modifiers.length := by
    simp only [List.length_append, List.length_take, List.length_drop]
    omega
  rw [atKeyword] at run
  have hkeyword : mc.tokens[read.length + header.modifiers.length]? = some header.keyword :=
    token_at (read ++ header.modifiers)
      (header.name :: header.lbrace :: header.newline ::
        (body.tokens ++ (closing.tokens ++ (rest.tokens ++ left))))
      (by simp [inBody.tokens, Layout.tokens, Header.tokens, Header.opening]) (by simp)
  have inside := (List.getElem?_eq_some_iff.mp hkeyword).1
  exact ⟨run, hkeyword, inside.trans_le inBody.bound⟩

/-- Where a skip ends before the closing brace, so does one that starts a line end earlier. -/
theorem token_of_clear {init : List Token} {newline : Token} (isNewline : newline.kind = .NEWLINE)
    {k : Nat} (clear : rest.Clear k) :
    ∃ t, (init ++ [newline] ++ (rest.tokens ++ left))[init.length + k]? = some t ∧ t.kind ≠ .RBRACE := by
  cases k with
  | zero => exact ⟨newline, token_at init (rest.tokens ++ left) (by simp) rfl, by simp [isNewline]⟩
  | succ k =>
    obtain ⟨t, ht, other⟩ := clear.token
    have inside := (List.getElem?_eq_some_iff.mp ht).1
    have shift : init.length + (k + 1) = (init ++ [newline]).length + k := by
      simp only [List.length_append, List.length_singleton]
      omega
    refine ⟨t, ?_, other⟩
    rw [shift, List.getElem?_append_right (by omega), Nat.add_sub_cancel_left,
      List.getElem?_append_left inside, ht]

/-- A nested definition: the internal call, then the test for a closing brace as many tokens past its
last line end as its header has modifiers. -/
theorem reaches_nested (hb : BodyRuns body)
    (inBody : InBody mc s start skipped read ((Layout.definition header body closing rest).tokens ++ left))
    (rbrace : ∃ t ∈ left.head?, t.kind = .RBRACE)
    (clear : (Layout.definition header body closing rest).Clear skipped)
    (plainEnum : ∀ d ∈ body.definitions ++ [⟨header, body, closing⟩], d.PlainEnum)
    (accepted : mc.toParsed.addAll mc.file (body.definitions ++ [⟨header, body, closing⟩]) = .ok P) :
    ∃ mc' s', Reaches b mc s mc' s' ∧ mc'.toParsed = P ∧ mc'.file = mc.file ∧
      (InBody mc' s' start header.modifiers.length (read.dropLast ++ [closing.newline])
          (rest.tokens ++ left) ∧ rest.Clear header.modifiers.length ∨
        AfterBody mc' s' start (read.dropLast ++ [closing.newline] ++ rest.tokens) left ∧
          rest.definitions = [] ∧ ∀ read, rest.own read = read ++ rest.tokens) := by
  obtain ⟨reached, scanned, restScanned⟩ := clear
  obtain ⟨mc', call, parsed, file, length, inBody'⟩ :=
    nested_stored hb inBody scanned plainEnum accepted
  obtain ⟨run, hkeyword, bound⟩ := reaches_keyword (b := b) inBody reached
  -- the call goes on at the token before the keyword's place
  let resumed : Scan := { s with
    endOfBody := none, endOfMessage := none, i := read.length + header.modifiers.length - 1 }
  have calls : ∀ {s' : Scan}, mc'.advance b resumed = (.ok s', mc') → Reaches b mc s mc' s' :=
    fun next => run.trans (reaches_call (s := { s with i := read.length + header.modifiers.length })
      bound hkeyword header.keyword_kind (by simp [inBody.started]) call next)
  have atNext : resumed.i + 1 = read.length + header.modifiers.length := by
    simp only [resumed]
    omega
  have tokens := (inBody' 0).tokens
  rcases restScanned.clear with clear | ⟨none, own, count⟩
  · obtain ⟨t, ht, other⟩ : ∃ t, mc'.tokens[resumed.i]? = some t ∧ t.kind ≠ .RBRACE := by
      have i : resumed.i = read.dropLast.length + header.modifiers.length := by
        simp only [resumed]
        omega
      rw [tokens, i]
      exact token_of_clear closing.newline_kind clear
    refine ⟨mc', _, calls (advance_open b ht other rfl), parsed, file, Or.inl ⟨?_, clear⟩⟩
    rw [atNext]
    exact inBody' header.modifiers.length
  · obtain ⟨t, ht, hrbrace⟩ := rbrace
    obtain ⟨left', rfl⟩ : ∃ left', left = t :: left' := by
      cases left with
      | nil => cases ht
      | cons t' left' =>
        cases ht
        exact ⟨left', rfl⟩
    have hi : resumed.i = (read.dropLast ++ [closing.newline] ++ rest.tokens).length := by
      simp only [resumed, List.length_append, List.length_singleton]
      omega
    have hat : mc'.tokens[resumed.i]? = some t :=
      token_at (read.dropLast ++ [closing.newline] ++ rest.tokens) left' (by simp [tokens]) hi
    refine ⟨mc', _, calls (advance_rbrace b hat hrbrace rfl), parsed, file, Or.inr ⟨⟨?_, ?_,
      inBody.started, rfl, rfl, (inBody' 0).bound⟩, none, own⟩⟩
    · simp [tokens]
    · exact congrArg (· + 1) hi

end Nested

/-- Every body runs, by induction on its lines: a plain line is passed, a nested definition is an
internal call, after which the call goes on as many tokens further as the nested header has
modifiers. -/
theorem bodyRuns (L : Layout) : BodyRuns L := by
  induction L with
  | nil =>
    intro b mc s start skipped read left P inBody rbrace clear _ accepted
    obtain ⟨t, ht, hrbrace⟩ := rbrace
    obtain ⟨left, rfl⟩ : ∃ left', left = t :: left' := by
      cases left with
      | nil => cases ht
      | cons t' left =>
        cases ht
        exact ⟨left, rfl⟩
    obtain rfl : skipped = 0 := clear
    have i : s.i = read.length := inBody.i
    have hat : mc.tokens[s.i]? = some t := token_at _ _ inBody.tokens i
    have bound : s.i < s.endPos := by
      have := (List.getElem?_eq_some_iff.mp hat).1
      have := inBody.bound
      omega
    have mark : s.mark t.kind = s := by
      rw [hrbrace]
      rfl
    have run := reaches_quiet (b := b) bound hat (by rw [Quiet, hrbrace]; simp)
      (by rw [mark]; exact advance_rbrace b hat hrbrace inBody.message)
    refine ⟨mc, _, run, ⟨inBody.tokens, ?_, inBody.started, rfl, inBody.message, inBody.bound⟩,
      addAll_nil.mp accepted, rfl⟩
    exact congrArg (· + 1) i
  | line l rest ih =>
    intro b mc s start skipped read left P inBody rbrace clear plainEnum accepted
    rw [Layout.tokens, List.append_assoc] at inBody
    obtain ⟨s₁, run₁, inBody₁⟩ := inBody_line (b := b) inBody
    obtain ⟨mc', s', run', after⟩ := ih (b := b) inBody₁ rbrace clear plainEnum accepted
    exact ⟨mc', s', run₁.trans run', after⟩
  | definition header body closing rest ihb ihr =>
    intro b mc s start skipped read left P inBody rbrace clear plainEnum accepted
    obtain ⟨P₁, nested, accepted⟩ := addAll_append_eq_ok.mp
      (show mc.toParsed.addAll mc.file
        (body.definitions ++ [⟨header, body, closing⟩] ++ rest.definitions) = .ok P by
          simpa [Layout.definitions] using accepted)
    obtain ⟨mc₁, s₁, run₁, parsed, file, ⟨inBody₁, clear₁⟩ | ⟨after, none, own⟩⟩ :=
      reaches_nested (b := b) ihb inBody rbrace clear
        (fun d hd => plainEnum d (by simp only [Layout.definitions] at *; grind)) nested
    · obtain ⟨mc', s', run', after, parsed', file'⟩ := ihr (b := b) inBody₁ rbrace clear₁
        (fun d hd => plainEnum d (by simp [Layout.definitions, hd])) (by rw [parsed, file]; exact accepted)
      exact ⟨mc', s', run₁.trans run', after, parsed', file'.trans file⟩
    · rw [none] at accepted
      refine ⟨mc₁, s₁, run₁, ?_, parsed.trans (addAll_nil.mp accepted), file⟩
      rw [Layout.own, own]
      exact after

end MessageCreator

end Harpia
