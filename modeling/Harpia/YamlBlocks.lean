import Harpia.YamlRoundTrip

namespace Harpia

open Text Reflection

variable {n : Nat}

section Rules

variable (F : FloatText) (P : Pool n) (lang : Lang)

/-- A text on a line that a field of a type reads as a value. -/
structure TextOf (ty : CppType n) (txt : List Char) (x : Scalar) : Prop where
  inline : Inline txt
  parsed : parseScalar F lang ty (unquote txt) = some x
  short : overlong ty (unquote txt) = false

/-- The lines of a block take one message to another, whatever stands behind them. -/
def Fills (b : Block n) (lines : List Ln) (m m' : Slots) : Prop :=
  ∀ rest bound hits, Ends b.indent rest → (lines ++ rest).length < bound →
    ∃ hits', hits ≤ hits' ∧ read F P lang bound b ⟨lines ++ rest, m, hits⟩ = .ok ⟨rest, m', hits'⟩

/-- So does one line of a block, with the lines below it. -/
structure FillsRow (b : Block n) (row : List Ln) (m m' : Slots) : Prop where
  some : row ≠ []
  column : ∀ l ∈ row.head?, l.indent = b.indent
  reads : ∀ rest bound hits, Ends (b.indent + 1) rest → (row ++ rest).length < bound + 1 →
    ∃ hits', hits ≤ hits' ∧
      read F P lang (bound + 1) b ⟨row ++ rest, m, hits⟩ = read F P lang bound b ⟨rest, m', hits'⟩

variable {F P lang}

theorem Fills.nil (b : Block n) (m : Slots) : Fills F P lang b [] m m := by
  intro rest bound hits ends hb
  obtain ⟨bound, rfl⟩ : ∃ k, bound = k + 1 := ⟨bound - 1, by omega⟩
  exact ⟨hits, le_rfl, read_ends bound b ends m hits⟩

/-- The rows of a block, one after the other. -/
theorem FillsRow.fills {b : Block n} {row more : List Ln} {m m₁ m' : Slots}
    (here : FillsRow F P lang b row m m₁) (below : Fills F P lang b more m₁ m')
    (column : ∀ l ∈ more.head?, l.indent = b.indent) : Fills F P lang b (row ++ more) m m' := by
  intro rest bound hits ends hb
  have after : Ends (b.indent + 1) (more ++ rest) :=
    ends_append column (by omega) (ends.mono (by omega))
  have some := List.length_pos_iff.mpr here.some
  rw [List.append_assoc] at hb ⊢
  obtain ⟨bound, rfl⟩ : ∃ k, bound = k + 1 := ⟨bound - 1, by omega⟩
  obtain ⟨h₁, hle₁, first⟩ := here.reads (more ++ rest) bound hits after hb
  obtain ⟨h₂, hle₂, second⟩ := below rest bound h₁ ends (by
    rw [List.length_append] at hb
    omega)
  exact ⟨h₂, hle₁.trans hle₂, first.trans second⟩

section Scalars

variable {f : Field n} {txt : List Char} {x : Scalar}

theorem TextOf.set (h : TextOf F lang f.type txt x) (single : f.repeated = false) (i : Nat)
    (m : Slots) : storeScalar F lang f i txt false m = .ok (m.set i [.scalar x], 1) := by
  simp [storeScalar, h.parsed, h.short, setValue, single, orAbort, Except.map]

theorem TextOf.add (h : TextOf F lang f.type txt x) (many : f.repeated) (i : Nat) (m : Slots) :
    storeScalar F lang f i txt true m = .ok (m.modify i (· ++ [.scalar x]), 1) := by
  simp [storeScalar, h.parsed, h.short, addValue, many, orAbort, Except.map]

end Scalars

section Mapping

variable {t : Fin n} {f : Field n} {i : Nat} {indent : Nat}

/-- A scalar on the line of its key: what it stores is all that happens. -/
theorem read_stored (hf : (P.desc t).fields[i]? = some f) {txt : List Char} (inline : Inline txt)
    {m m' : Slots} {k : Nat} (stored : storeScalar F lang f i txt f.repeated m = .ok (m', k))
    (rest : List Ln) (bound hits : Nat) :
    read F P lang (bound + 1) (.mapping indent t)
        ⟨headed indent f.name (' ' :: txt) [] ++ rest, m, hits⟩ =
      read F P lang bound (.mapping indent t) ⟨rest, m', hits + k⟩ := by
  have name := P.names_word t f (List.mem_of_getElem? hf)
  obtain ⟨value, nonempty, flow⟩ := inline_value inline
  rw [headed, List.singleton_append, read_line bound (holds_mapping (.bare name) _), readLine]
  simp only [applyEntry, splitKv_inline (.bare name), unquote_name name, P.find?_name t hf, value,
    ne_eq, nonempty, not_false_eq_true, ↓reduceIte, flow, Bool.false_eq_true, setScalar, stored,
    Except.map]
  rfl

theorem fillsRow_stored (hf : (P.desc t).fields[i]? = some f) {txt : List Char} (inline : Inline txt)
    {m m' : Slots} {k : Nat} (stored : storeScalar F lang f i txt f.repeated m = .ok (m', k)) :
    FillsRow F P lang (.mapping indent t) (headed indent f.name (' ' :: txt) []) m m' where
  some := by simp [headed]
  column := by simp [headed, Block.indent]
  reads rest bound hits _ _ :=
    ⟨hits + k, Nat.le_add_right _ _, read_stored hf inline stored rest bound hits⟩

/-- A map or a repeated field without elements. -/
theorem fillsRow_flow (hf : (P.desc t).fields[i]? = some f) {val : List Char}
    (flow : val = ['{', '}'] ∨ val = ['[', ']']) (m : Slots) :
    FillsRow F P lang (.mapping indent t) (headed indent f.name (' ' :: val) []) m m where
  some := by simp [headed]
  column := by simp [headed, Block.indent]
  reads rest bound hits _ _ := by
    have name := P.names_word t f (List.mem_of_getElem? hf)
    refine ⟨hits, le_rfl, ?_⟩
    rw [headed, List.singleton_append, read_line bound (holds_mapping (.bare name) _), readLine,
      applyEntry_flow hf flow]
    rfl

/-- A key with a block below it, by what the reader does at the first line of the block. -/
theorem fillsRow_block (hf : (P.desc t).fields[i]? = some f) {s : List Char} {below : List Ln}
    {m m' : Slots}
    (opens : ∀ rest bound hits, Ends (indent + 1) rest →
      ((⟨indent + 2, s⟩ :: below) ++ rest).length < bound →
      ∃ hits', hits ≤ hits' ∧
        applyEntry F P lang (read F P lang bound) indent t (f.name ++ [':'])
          ⟨(⟨indent + 2, s⟩ :: below) ++ rest, m, hits⟩ = .ok ⟨rest, m', hits'⟩) :
    FillsRow F P lang (.mapping indent t) (headed indent f.name [] (⟨indent + 2, s⟩ :: below)) m m'
    where
  some := by simp [headed]
  column := by simp [headed, Block.indent]
  reads rest bound hits ends hb := by
    have name := P.names_word t f (List.mem_of_getElem? hf)
    obtain ⟨hits', hle, hread⟩ := opens rest bound hits ends (by simpa [headed] using hb)
    refine ⟨hits', hle, ?_⟩
    rw [headed, List.cons_append, read_line bound (holds_mapping (.bare name) _), readLine, hread]
    rfl

theorem fillsRow_sequence (hf : (P.desc t).fields[i]? = some f) {text : List Char} {below : List Ln}
    {m m' : Slots}
    (h : Fills F P lang (.sequence (indent + 2) i f) (⟨indent + 2, '-' :: ' ' :: text⟩ :: below) m m') :
    FillsRow F P lang (.mapping indent t)
      (headed indent f.name [] (⟨indent + 2, '-' :: ' ' :: text⟩ :: below)) m m' := by
  refine fillsRow_block hf fun rest bound hits ends hb => ?_
  have inside : Ends (indent + 2) rest := ends.mono (by omega)
  obtain ⟨hits', hle, hread⟩ := h rest bound hits inside hb
  refine ⟨hits', hle, ?_⟩
  rw [List.cons_append] at hread ⊢
  rw [applyEntry_block hf _ (by simp)]
  simp only [isSeqItem, ↓reduceIte, hread]

theorem fillsRow_map (hf : (P.desc t).fields[i]? = some f) (hm : P.isMap f) {key inline : List Char}
    (hk : Inline key) {below : List Ln} {m m' : Slots}
    (h : Fills F P lang (.map (indent + 2) i f) (⟨indent + 2, key ++ ':' :: inline⟩ :: below) m m') :
    FillsRow F P lang (.mapping indent t)
      (headed indent f.name [] (⟨indent + 2, key ++ ':' :: inline⟩ :: below)) m m' := by
  refine fillsRow_block hf fun rest bound hits ends hb => ?_
  have inside : Ends (indent + 2) rest := ends.mono (by omega)
  obtain ⟨hits', hle, hread⟩ := h rest bound hits inside hb
  refine ⟨hits', hle, ?_⟩
  rw [List.cons_append] at hread ⊢
  rw [applyEntry_block hf _ (by simp)]
  simp only [isSeqItem_inline hk, Bool.false_eq_true, ↓reduceIte, hm, hread]

theorem fillsRow_message (hf : (P.desc t).fields[i]? = some f) (single : f.repeated = false)
    {s : Fin n} (hs : f.type.messageType? = some s) {key inline : List Char} (hk : Inline key)
    {below : List Ln} {m sub : Slots} (target : P.mutableMessage f i m = some (P.new s))
    (h : Fills F P lang (.mapping (indent + 2) s) (⟨indent + 2, key ++ ':' :: inline⟩ :: below)
      (P.new s) sub) :
    FillsRow F P lang (.mapping indent t)
      (headed indent f.name [] (⟨indent + 2, key ++ ':' :: inline⟩ :: below)) m
      (m.set i [.message sub]) := by
  have plain : P.isMap f = false := by
    by_contra hm
    have many := P.isMap_repeated (List.mem_of_getElem? hf) (by simpa using hm)
    simp [single] at many
  have one : f.singleMessage? = some s := by simp [Field.singleMessage?, single, hs]
  refine fillsRow_block hf fun rest bound hits ends hb => ?_
  have inside : Ends (indent + 2) rest := ends.mono (by omega)
  obtain ⟨hits', hle, hread⟩ := h rest bound hits inside hb
  refine ⟨hits', hle, ?_⟩
  rw [List.cons_append] at hread ⊢
  rw [applyEntry_block hf _ (by simp)]
  simp only [isSeqItem_inline hk, Bool.false_eq_true, ↓reduceIte, plain, one, readSub, target,
    orAbort, bind, Except.bind, hread]

end Mapping

section Items

variable {f : Field n} {indent : Nat}

theorem holds_item (i : Nat) (cs : List Char) :
    (Block.sequence indent i f).holds ⟨indent, '-' :: ' ' :: cs⟩ := by
  simp [Block.holds, Block.indent, isSeqItem]

theorem fillsRow_item (many : f.repeated) (scalar : f.type.messageType? = none) {txt : List Char}
    {x : Scalar} (h : TextOf F lang f.type txt x) (i : Nat) (m : Slots) :
    FillsRow F P lang (.sequence indent i f) [⟨indent, '-' :: ' ' :: txt⟩] m
      (m.modify i (· ++ [.scalar x])) where
  some := by simp
  column := by simp [Block.indent]
  reads rest bound hits _ _ := by
    have plain : P.isMap f = false := notMap_of_notMessage scalar
    obtain ⟨c, cs, hcs, hs, -, hl⟩ := h.inline.head
    have text : itemText ('-' :: ' ' :: txt) = txt := itemText_dash (by simp [hcs, hs])
    have kept : ¬ (txt = [] ∨ txt = ['[', ']']) := by simp [hcs, hl]
    refine ⟨hits + 1, by omega, ?_⟩
    rw [List.singleton_append, read_line bound (holds_item i txt), readLine]
    simp only [readItem, text, plain, Bool.false_eq_true, and_false, ↓reduceIte, scalar, kept, many,
      Bool.or_true, setScalar, h.add many, Except.map]
    rfl

/-- An element that is a message: its key stands behind the dash, its other fields below. -/
theorem fillsRow_itemMessage (many : f.repeated) (plain : P.isMap f = false) {s : Fin n}
    (hs : f.type.messageType? = some s) {kf : Field n} (hk : (P.desc s).fields[0]? = some kf)
    (single : kf.repeated = false) {txt : List Char} {x : Scalar} (key : TextOf F lang kf.type txt x)
    {below : List Ln} {sub : Slots} (a b : Slots) (es : List Value)
    (h : Fills F P lang (.mapping (indent + 2) s) below ((P.new s).set 0 [.scalar x]) sub) :
    FillsRow F P lang (.sequence indent a.length f)
      (⟨indent, '-' :: ' ' :: (kf.name ++ ':' :: ' ' :: txt)⟩ :: below) (a ++ es :: b)
      (a ++ (es ++ [.message sub]) :: b) where
  some := by simp
  column := by simp [Block.indent]
  reads rest bound hits ends hb := by
    have name := P.names_word s kf (List.mem_of_getElem? hk)
    obtain ⟨value, nonempty, flow⟩ := inline_value key.inline
    obtain ⟨c, cs, hc, hspace⟩ := (Inline.bare name).keyOk.first
    have text : itemText ('-' :: ' ' :: (kf.name ++ ':' :: ' ' :: txt)) =
        kf.name ++ ':' :: ' ' :: txt := itemText_dash (by simp [hc, hspace])
    have kept : ¬ (kf.name ++ ':' :: ' ' :: txt = [] ∨
        kf.name ++ ':' :: ' ' :: txt = ['{', '}']) := by
      have brace : c ≠ '{' := ne_of_isWord ((isName_cons name).2 c (by simp [hc])) (by decide)
      simp [hc, brace]
    have first : ∀ st, firstEntry F P lang (read F P lang bound) indent s (kf.name ++ ':' :: ' ' :: txt)
        st = .ok { st with msg := st.msg.set 0 [.scalar x], hits := st.hits + 1 } := by
      intro st
      simp only [firstEntry, kept, ↓reduceIte, splitKv_inline (.bare name), unquote_name name,
        P.find?_name s hk, value, ne_eq, nonempty, not_false_eq_true, flow, Bool.false_eq_true,
        setScalar, single, key.set single, Except.map]
    have shorter : (below ++ rest).length < bound := by simpa using hb
    obtain ⟨hits', hle, hread⟩ := h rest bound (hits + 1 + 1) (ends.mono (by simp [Block.indent]))
      shorter
    refine ⟨hits', by omega, ?_⟩
    rw [List.cons_append, read_line bound (holds_item a.length _), readLine]
    simp only [readItem, plain, Bool.false_eq_true, and_false, ↓reduceIte, hs,
      addMessage_mid hs many, orAbort, text, bind, Except.bind, first, hread, modify_mid,
      List.dropLast_concat]

end Items

section Entries

variable {f : Field n} {s : Fin n} {kf vf : Field n} {indent : Nat}

theorem holds_entry {key : List Char} (h : Inline key) (i : Nat) (inline : List Char) :
    (Block.map indent i f).holds ⟨indent, key ++ ':' :: inline⟩ := by
  simp [Block.holds, Block.indent, isSeqItem_inline h inline]

/-- An entry, from the reading of its value on. -/
theorem readEntry_of (entry : EntryOf P f s kf vf) (many : f.repeated) {txt : List Char} {k : Scalar}
    (key : TextOf F lang kf.type txt k) (inline : List Char) {value : List Value} {rec : Read n}
    {lines rest : List Ln} {hits hits' : Nat} (a b : Slots) {es : List Value}
    (fresh : some k ∉ es.map entryKey)
    (hv : readEntryValue F P lang rec indent vf (inline.dropWhile (· = ' '))
      ⟨lines, clearValue P lang vf [[.scalar k], vf.initial], hits + 1⟩ =
        .ok ⟨rest, [[.scalar k], value], hits'⟩) :
    readEntry F P lang rec indent f a.length (txt ++ ':' :: inline) ⟨lines, a ++ es :: b, hits⟩ =
      .ok ⟨rest, a ++ (es ++ [.message [[.scalar k], value]]) :: b, hits'⟩ := by
  have start : (P.new s).set 0 [.scalar k] = [[.scalar k], vf.initial] := by
    simp [Pool.new, entry.fields]
  have stored : storeScalar F lang kf 0 txt false (P.new s) = .ok ([[.scalar k], vf.initial], 1) := by
    rw [key.set entry.keySingle, start]
  have absent : entryKey (.message [[.scalar k], value]) ∉ es.map entryKey := fresh
  simp only [readEntry, entry.type, entry.fields, addMessage_mid entry.type many, orAbort, bind,
    Except.bind, splitKv_inline key.inline, stored, hv]
  cases lang with
  | cpp => simp only [modify_mid, List.dropLast_concat]
  | python => simp only [modify_mid, putEntry_new absent]

theorem fillsRow_entry (entry : EntryOf P f s kf vf) (many : f.repeated) {txt : List Char} {k : Scalar}
    (key : TextOf F lang kf.type txt k) (scalar : vf.type.messageType? = none) {val : List Char}
    {x : Scalar} (value : TextOf F lang vf.type val x) (a b : Slots) {es : List Value}
    (fresh : Option.some k ∉ es.map entryKey) :
    FillsRow F P lang (.map indent a.length f) [⟨indent, txt ++ ':' :: ' ' :: val⟩] (a ++ es :: b)
      (a ++ (es ++ [.message [[.scalar k], [.scalar x]]]) :: b) where
  some := by simp
  column := by simp [Block.indent]
  reads rest bound hits _ _ := by
    obtain ⟨inline, nonempty, flow⟩ := inline_value value.inline
    have kept : clearValue P lang vf [[.scalar k], vf.initial] = [[.scalar k], vf.initial] := by
      cases lang <;> simp [clearValue, scalar]
    have held : readEntryValue F P lang (read F P lang bound) indent vf
        ((' ' :: val).dropWhile (· = ' '))
        ⟨rest, clearValue P lang vf [[.scalar k], vf.initial], hits + 1⟩ =
          .ok ⟨rest, [[.scalar k], [.scalar x]], hits + 1⟩ := by
      simp only [readEntryValue, inline, ne_eq, nonempty, not_false_eq_true, ↓reduceIte, flow,
        Bool.false_eq_true, kept, value.set entry.valueSingle, Except.map]
      rfl
    refine ⟨hits + 1, by omega, ?_⟩
    rw [List.singleton_append, read_line bound (holds_entry key.inline a.length _), readLine,
      readEntry_of entry many key _ a b fresh held]
    rfl

theorem fillsRow_entryMessage (entry : EntryOf P f s kf vf) (many : f.repeated) {txt : List Char}
    {k : Scalar} (key : TextOf F lang kf.type txt k) {u : Fin n} (hu : vf.type.messageType? = some u)
    {line : List Char} {below : List Ln} {sub : Slots} (a b : Slots) {es : List Value}
    (fresh : Option.some k ∉ es.map entryKey)
    (h : Fills F P lang (.mapping (indent + 2) u) (⟨indent + 2, line⟩ :: below) (P.new u) sub) :
    FillsRow F P lang (.map indent a.length f)
      (headed indent txt [] (⟨indent + 2, line⟩ :: below)) (a ++ es :: b)
      (a ++ (es ++ [.message [[.scalar k], [.message sub]]]) :: b) where
  some := by simp [headed]
  column := by simp [headed, Block.indent]
  reads rest bound hits ends hb := by
    have hvf : vf ∈ (P.desc s).fields := by simp [entry.fields]
    obtain ⟨hits', hle, hread⟩ := h rest bound (hits + 1) (ends.mono (by simp [Block.indent]))
      (by simpa [headed] using hb)
    rw [List.cons_append] at hread
    have value := readEntryValue_message F lang hvf entry.valueSingle hu indent (by simp) [.scalar k]
      hread
    refine ⟨hits', by omega, ?_⟩
    rw [headed, List.cons_append, List.cons_append,
      read_line bound (holds_entry key.inline a.length []), readLine,
      readEntry_of entry many key [] a b fresh value]
    rfl

end Entries

end Rules

end Harpia
