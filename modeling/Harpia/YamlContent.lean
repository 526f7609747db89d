import Harpia.YamlLayout

namespace Harpia

open Text Reflection

variable {n : Nat}

/-- Printable characters, tabs and line breaks. -/
def isPlain (c : Char) : Bool :=
  c = '\t' || c = '\n' || c = '\r' || (0x20 ≤ c.toNat && c.toNat ≤ 0x7E)

def PlainText (cs : List Char) : Prop := ∀ c ∈ cs, isPlain c

section Numbers

theorem isNumberSpace_eq {c : Char} (h : isPlain c) :
    isNumberSpace .cpp c = isNumberSpace .python c := by
  by_cases separator : c = '\x1c' ∨ c = '\x1d' ∨ c = '\x1e' ∨ c = '\x1f'
  · rcases separator with rfl | rfl | rfl | rfl <;> exact absurd h (by decide)
  · simp only [not_or] at separator
    simp [isNumberSpace, isSpace, separator]

theorem dropWhile_eq {p q : Char → Bool} {cs : List Char} (h : ∀ c ∈ cs, p c = q c) :
    cs.dropWhile p = cs.dropWhile q := by
  induction cs with
  | nil => rfl
  | cons c cs ih =>
    obtain ⟨here, below⟩ := List.forall_mem_cons.mp h
    rw [List.dropWhile_cons, List.dropWhile_cons, here, ih below]

theorem leadingInt_eq {cs : List Char} (h : PlainText cs) :
    leadingInt .cpp cs = leadingInt .python cs := by
  rw [leadingInt, leadingInt, dropWhile_eq fun c hc => isNumberSpace_eq (h c hc)]

/-- The emulation of the C functions takes plain text for the same number. -/
theorem parseScalar_eq (F : FloatText) (ty : CppType n) {cs : List Char} (h : PlainText cs) :
    parseScalar F .cpp ty cs = parseScalar F .python ty cs := by
  have signed : toLl .cpp cs = toLl .python cs := by rw [toLl, toLl, leadingInt_eq h]
  have unsigned : toUll .cpp cs = toUll .python cs := by rw [toUll, toUll, leadingInt_eq h]
  cases ty <;> simp only [parseScalar, signed, unsigned]

theorem plainText_unescape {cs : List Char} (h : PlainText cs) : PlainText (unescape cs) := by
  induction cs using unescape.induct with
  | case1 c cs ih =>
    obtain ⟨-, hc, rest⟩ := List.forall_mem_cons.mp h |>.imp_right List.forall_mem_cons.mp
    rw [unescape]
    refine List.forall_mem_cons.mpr ⟨?_, ih rest⟩
    split
    · decide
    · split
      · decide
      · exact hc
  | case2 c cs other ih =>
    obtain ⟨hc, rest⟩ := List.forall_mem_cons.mp h
    rw [unescape.eq_2 c cs other]
    exact List.forall_mem_cons.mpr ⟨hc, ih rest⟩
  | case3 => exact h

theorem PlainText.of_sublist {cs ds : List Char} (h : PlainText cs) (hs : ds.Sublist cs) :
    PlainText ds :=
  fun c hc => h c (hs.subset hc)

theorem plainText_unquote {cs : List Char} (h : PlainText cs) : PlainText (unquote cs) := by
  unfold unquote
  split
  · exact plainText_unescape
      (h.of_sublist ((List.dropLast_sublist _).trans (List.drop_sublist 1 cs)))
  · exact h

theorem scanQuoted_sublist (cs : List Char) :
    (scanQuoted cs).1.Sublist cs ∧ (scanQuoted cs).2.Sublist cs := by
  induction cs using scanQuoted.induct with
  | case1 c cs ih =>
    rw [scanQuoted]
    exact ⟨(ih.1.cons_cons c).cons_cons '\\', (ih.2.cons c).cons '\\'⟩
  | case2 cs =>
    rw [scanQuoted]
    exact ⟨by simp, List.sublist_cons_self _ _⟩
  | case3 c cs other quote ih =>
    rw [scanQuoted.eq_3 c cs other quote]
    exact ⟨ih.1.cons_cons c, ih.2.cons c⟩
  | case4 => exact ⟨List.Sublist.refl _, List.Sublist.refl _⟩

theorem afterColon_sublist (cs : List Char) : (afterColon cs).Sublist cs :=
  (List.dropWhile_suffix _).sublist.trans
    ((List.drop_sublist 1 _).trans (List.dropWhile_suffix _).sublist)

theorem splitKv_sublist (cs : List Char) :
    (splitKv cs).1.Sublist cs ∧ (splitKv cs).2.Sublist cs := by
  unfold splitKv
  split
  next cs =>
    exact ⟨(scanQuoted_sublist cs).1.cons_cons '"',
      ((afterColon_sublist _).trans (scanQuoted_sublist cs).2).cons '"'⟩
  next => exact ⟨(List.takeWhile_prefix _).sublist, afterColon_sublist _⟩

theorem itemText_sublist (cs : List Char) : (itemText cs).Sublist cs :=
  (List.dropWhile_suffix _).sublist.trans (List.drop_sublist 1 cs)

theorem plainText_splitOn {text : List Char} (h : PlainText text) (sep : Char) :
    ∀ line ∈ text.splitOn sep, PlainText line := by
  induction text with
  | nil => simp [PlainText]
  | cons c text ih =>
    obtain ⟨hc, rest⟩ := List.forall_mem_cons.mp h
    have lines := ih rest
    rw [List.splitOn_cons_eq_if_modifyHead]
    split
    · exact List.forall_mem_cons.mpr ⟨by simp [PlainText], lines⟩
    · cases hs : text.splitOn sep with
      | nil => exact absurd hs (List.splitOn_ne_nil sep text)
      | cons first others =>
        rw [hs] at lines
        obtain ⟨hfirst, hothers⟩ := List.forall_mem_cons.mp lines
        rw [List.modifyHead_cons]
        exact List.forall_mem_cons.mpr ⟨List.forall_mem_cons.mpr ⟨hc, hfirst⟩, hothers⟩

theorem lineOf_sublist {line : List Char} {l : Ln} (h : lineOf line = some l) :
    l.s.Sublist line := by
  have noReturn : (dropReturn line).Sublist line := by
    unfold dropReturn
    split
    · exact List.dropLast_sublist line
    · exact List.Sublist.refl line
  have noBlanks : ∀ cs : List Char, (dropBlanksRight cs).Sublist cs := by
    intro cs
    have inside := (List.dropWhile_suffix (l := cs.reverse) fun c => c = ' ' || c = '\t').sublist
    simpa [dropBlanksRight] using inside.reverse
  simp only [lineOf] at h
  split at h
  · exact absurd h (by simp)
  · rw [← Option.some.inj h]
    exact (noBlanks _).trans ((List.dropWhile_suffix _).sublist.trans noReturn)

/-- The lines of plain text are plain. -/
theorem plainText_tokenize {text : List Char} (h : PlainText text) :
    ∀ l ∈ tokenize text, PlainText l.s := by
  intro l hl
  obtain ⟨line, hline, hl⟩ := List.mem_filterMap.mp hl
  exact (plainText_splitOn h '\n' line hline).of_sublist (lineOf_sublist hl)

end Numbers

section Content

variable (P : Pool n)

/-- The entries of a map: one that is added for a key that the map has replaces its entry. -/
def collect (es : List Value) : List Value := es.foldl putEntry []

/-- An entry of a map that was given no value has an empty message for one. -/
def fillEntry (s : Fin n) (slots : Slots) : Slots :=
  match (P.desc s).mapEntry, (P.desc s).fields, slots with
  | true, [_, vf], [key, []] =>
    match vf.type.messageType? with
    | some v => [key, [.message (P.new v)]]
    | none => slots
  | _, _, _ => slots

mutual

/-- What the fields of a message hold, with its maps as maps. -/
def content : List (Field n) → Slots → Slots
  | [], slots => slots
  | _ :: _, [] => []
  | f :: fields, slot :: slots =>
    (if P.isMap f then collect (contentItems f.type slot) else contentItems f.type slot) ::
      content fields slots

def contentItems (ty : CppType n) : List Value → List Value
  | [] => []
  | v :: vs => contentValue ty v :: contentItems ty vs

def contentValue (ty : CppType n) : Value → Value
  | .scalar x => .scalar x
  | .message slots =>
    match ty.messageType? with
    | some s => .message (fillEntry P s (content (P.desc s).fields slots))
    | none => .message slots

end

def contentSlot (f : Field n) (slot : List Value) : List Value :=
  if P.isMap f then collect (contentItems P f.type slot) else contentItems P f.type slot

/-- Two messages of a type have the same content. -/
def SameContent (t : Fin n) (m m' : Slots) : Prop :=
  content P (P.desc t).fields m = content P (P.desc t).fields m'

variable {P}

theorem contentItems_eq_map (ty : CppType n) (vs : List Value) :
    contentItems P ty vs = vs.map (contentValue P ty) := by
  induction vs with
  | nil => rfl
  | cons v vs ih => rw [contentItems, ih, List.map_cons]

theorem content_cons (f : Field n) (fields : List (Field n)) (slot : List Value) (slots : Slots) :
    content P (f :: fields) (slot :: slots) = contentSlot P f slot :: content P fields slots := by
  rw [content, contentSlot]

theorem content_getElem? {fields : List (Field n)} {i : Nat} {f : Field n}
    (hf : fields[i]? = some f) (m : Slots) :
    (content P fields m)[i]? = m[i]?.map (contentSlot P f) := by
  induction fields generalizing i m with
  | nil => simp at hf
  | cons g fields ih =>
    cases m with
    | nil => simp [content]
    | cons slot m =>
      rw [content_cons]
      cases i with
      | zero =>
        rw [List.getElem?_cons_zero] at hf
        rw [List.getElem?_cons_zero, List.getElem?_cons_zero, Option.map_some, Option.some.inj hf]
      | succ i =>
        rw [List.getElem?_cons_succ] at hf
        rw [List.getElem?_cons_succ, List.getElem?_cons_succ, ih hf m]

theorem content_modify {fields : List (Field n)} {i : Nat} {f : Field n}
    (hf : fields[i]? = some f) {g h : List Value → List Value}
    (hg : ∀ slot, contentSlot P f (g slot) = h (contentSlot P f slot)) (m : Slots) :
    content P fields (m.modify i g) = (content P fields m).modify i h := by
  induction fields generalizing i m with
  | nil => simp at hf
  | cons f' fields ih =>
    cases m with
    | nil => simp [content]
    | cons slot m =>
      cases i with
      | zero =>
        rw [List.getElem?_cons_zero] at hf
        rw [List.modify_zero_cons, content_cons, content_cons, List.modify_zero_cons,
          Option.some.inj hf, hg]
      | succ i =>
        rw [List.getElem?_cons_succ] at hf
        rw [List.modify_succ_cons, content_cons, content_cons, List.modify_succ_cons, ih hf]

theorem set_eq_modify (m : Slots) (i : Nat) (slot : List Value) :
    m.set i slot = m.modify i fun _ => slot := by
  rw [List.set_eq_modify]

variable {t : Fin n} {f : Field n} {i : Nat} {m m' : Slots}

/-- A field is changed in the same way on both sides. -/
theorem SameContent.modify (h : SameContent P t m m') (hf : (P.desc t).fields[i]? = some f)
    {g g' k : List Value → List Value}
    (hg : ∀ slot, contentSlot P f (g slot) = k (contentSlot P f slot))
    (hg' : ∀ slot, contentSlot P f (g' slot) = k (contentSlot P f slot)) :
    SameContent P t (m.modify i g) (m'.modify i g') := by
  rw [SameContent, content_modify hf hg, content_modify hf hg', h]

theorem SameContent.set (h : SameContent P t m m') (hf : (P.desc t).fields[i]? = some f)
    {slot slot' : List Value} (hs : contentSlot P f slot = contentSlot P f slot') :
    SameContent P t (m.set i slot) (m'.set i slot') := by
  rw [set_eq_modify, set_eq_modify]
  exact h.modify hf (k := fun _ => contentSlot P f slot) (fun _ => rfl) (fun _ => hs.symm)

theorem contentSlot_append (plain : P.isMap f = false) (slot : List Value) (v : Value) :
    contentSlot P f (slot ++ [v]) = contentSlot P f slot ++ [contentValue P f.type v] := by
  simp [contentSlot, plain, contentItems_eq_map]

/-- An element is added to a repeated field. -/
theorem SameContent.append (h : SameContent P t m m') (hf : (P.desc t).fields[i]? = some f)
    (plain : P.isMap f = false) {v v' : Value}
    (hv : contentValue P f.type v = contentValue P f.type v') :
    SameContent P t (m.modify i (· ++ [v])) (m'.modify i (· ++ [v'])) :=
  h.modify hf (k := (· ++ [contentValue P f.type v]))
    (fun slot => contentSlot_append plain slot v)
    (fun slot => (contentSlot_append plain slot v').trans (by rw [hv]))

theorem contentSlot_single (plain : P.isMap f = false) (v : Value) :
    contentSlot P f [v] = [contentValue P f.type v] := by
  simp [contentSlot, plain, contentItems]

theorem entryKey_fillEntry (s : Fin n) (slots : Slots) :
    entryKey (.message (fillEntry P s slots)) = entryKey (.message slots) := by
  unfold fillEntry
  split
  · split
    · unfold entryKey
      split <;> simp_all
    · rfl
  · rfl

/-- An entry keeps its key. -/
theorem entryKey_contentValue (hm : P.isMap f) (v : Value) :
    entryKey (contentValue P f.type v) = entryKey v := by
  cases v with
  | scalar x => rfl
  | message slots =>
    obtain ⟨s, hs⟩ := Pool.isMap_message hm
    obtain ⟨-, kf, vf, hfields, -, -, -, -, scalar⟩ := Pool.isMap_fields hm hs
    have plain : P.isMap kf = false :=
      notMap_of_notMessage (by simpa [CppType.isMessage] using scalar)
    rw [contentValue, hs]
    simp only
    rw [entryKey_fillEntry, hfields]
    cases slots with
    | nil => rfl
    | cons key slots =>
      rw [content_cons, contentSlot, plain]
      rcases key with _ | ⟨k, key⟩
      · rfl
      · cases k with
        | scalar k => rfl
        | message inner =>
          have none' : kf.type.messageType? = none := by simpa [CppType.isMessage] using scalar
          simp [contentItems, contentValue, none', entryKey]

theorem map_putEntry {c : Value → Value} (hc : ∀ v, entryKey (c v) = entryKey v) (es : List Value)
    (e : Value) : (putEntry es e).map c = putEntry (es.map c) (c e) := by
  have any : ((es.map c).any fun o => entryKey o = entryKey (c e)) =
      es.any fun o => entryKey o = entryKey e := by
    rw [List.any_map]
    simp only [Function.comp_def, hc]
  rw [putEntry, putEntry, any]
  split
  · rw [List.map_map, List.map_map]
    refine List.map_congr_left fun o _ => ?_
    simp only [Function.comp_apply, hc]
    split <;> rfl
  · rw [List.map_append, List.map_singleton]

/-- The entry `e` in the place of an entry with its key. -/
def replaceBy (e o : Value) : Value := if entryKey o = entryKey e then e else o

theorem entryKey_replaceBy (e o : Value) : entryKey (replaceBy e o) = entryKey o := by
  unfold replaceBy
  split
  next h => exact h.symm
  next => rfl

theorem putEntry_of_mem {es : List Value} {e : Value} (h : entryKey e ∈ es.map entryKey) :
    putEntry es e = es.map (replaceBy e) := by
  have found : (es.any fun o => entryKey o = entryKey e) = true := by
    obtain ⟨o, ho, hk⟩ := List.mem_map.mp h
    exact List.any_eq_true.mpr ⟨o, ho, by simp [hk]⟩
  rw [putEntry, if_pos found]
  rfl

theorem mem_keys_putEntry {es : List Value} {e : Value} {k : Option Scalar} :
    k ∈ (putEntry es e).map entryKey ↔ k ∈ es.map entryKey ∨ k = entryKey e := by
  by_cases h : entryKey e ∈ es.map entryKey
  · have keys : (es.map (replaceBy e)).map entryKey = es.map entryKey := by
      rw [List.map_map]
      exact List.map_congr_left fun o _ => entryKey_replaceBy e o
    rw [putEntry_of_mem h, keys]
    refine ⟨.inl, fun hk => hk.elim id fun he => he ▸ h⟩
  · rw [putEntry_new h]
    simp

theorem collect_append (es : List Value) (e : Value) :
    collect (es ++ [e]) = putEntry (collect es) e := by
  rw [collect, List.foldl_append]
  rfl

theorem mem_keys_collect {es : List Value} {k : Option Scalar} :
    k ∈ (collect es).map entryKey ↔ k ∈ es.map entryKey := by
  induction es using List.reverseRecOn with
  | nil => rfl
  | append_singleton es e ih =>
    rw [collect_append, mem_keys_putEntry, ih, List.map_append, List.mem_append]
    simp

theorem collect_map {c : Value → Value} (hc : ∀ v, entryKey (c v) = entryKey v) (es : List Value) :
    collect (es.map c) = (collect es).map c := by
  induction es using List.reverseRecOn with
  | nil => rfl
  | append_singleton es e ih =>
    rw [List.map_append, List.map_singleton, collect_append, collect_append, ih, map_putEntry hc]

/-- To replace an entry of a map is to add one for its key. -/
theorem collect_putEntry (es : List Value) (e : Value) :
    collect (putEntry es e) = putEntry (collect es) e := by
  by_cases h : entryKey e ∈ es.map entryKey
  · rw [putEntry_of_mem h, putEntry_of_mem (mem_keys_collect.mpr h),
      collect_map (entryKey_replaceBy e)]
  · rw [putEntry_new h, collect_append]

theorem contentSlot_add (hm : P.isMap f) (slot : List Value) (e : Value) :
    contentSlot P f (slot ++ [e]) = putEntry (contentSlot P f slot) (contentValue P f.type e) := by
  simp only [contentSlot, hm, ↓reduceIte, contentItems_eq_map, List.map_append, List.map_singleton,
    collect_append]

theorem contentSlot_put (hm : P.isMap f) (slot : List Value) (e : Value) :
    contentSlot P f (putEntry slot e) = putEntry (contentSlot P f slot) (contentValue P f.type e) := by
  simp only [contentSlot, hm, ↓reduceIte, contentItems_eq_map,
    map_putEntry (entryKey_contentValue hm), collect_putEntry]

/-- One side adds an entry to a map where the other replaces the entry of its key. -/
theorem SameContent.put (h : SameContent P t m m') (hf : (P.desc t).fields[i]? = some f)
    (hm : P.isMap f) {e e' : Value} (he : contentValue P f.type e = contentValue P f.type e') :
    SameContent P t (m.modify i (· ++ [e])) (m'.modify i fun es => putEntry es e') :=
  h.modify hf (k := fun slot => putEntry slot (contentValue P f.type e))
    (fun slot => contentSlot_add hm slot e)
    (fun slot => (contentSlot_put hm slot e').trans (by rw [he]))

theorem contentValue_message {s : Fin n} (hs : f.type.messageType? = some s)
    (plain : P.isMap f = false) (sub : Slots) :
    contentValue P f.type (.message sub) = .message (content P (P.desc s).fields sub) := by
  have notEntry : (P.desc s).mapEntry = false := by rwa [← isMap_of_messageType hs]
  rw [contentValue, hs]
  simp only [fillEntry, notEntry]

theorem content_new (v : Fin n) : content P (P.desc v).fields (P.new v) = P.new v := by
  have initial : ∀ g : Field n, contentSlot P g g.initial = g.initial := by
    intro g
    unfold Field.initial contentSlot
    split
    · split <;> rfl
    · split <;> rfl
  have fields : ∀ fields : List (Field n),
      content P fields (fields.map Field.initial) = fields.map Field.initial := by
    intro fields
    induction fields with
    | nil => rfl
    | cons g fields ih => rw [List.map_cons, content_cons, initial, ih]
  exact fields _

/-- An entry that was given no value has the content of one with an empty message. -/
theorem contentValue_unset {s v : Fin n} {kf vf : Field n} (hs : f.type.messageType? = some s)
    (entry : (P.desc s).mapEntry) (hfields : (P.desc s).fields = [kf, vf])
    (hv : vf.type.messageType? = some v) (plain : P.isMap vf = false) (key : List Value) :
    contentValue P f.type (.message [key, []]) =
      contentValue P f.type (.message [key, [.message (P.new v)]]) := by
  have unset : content P [kf, vf] [key, []] = [contentSlot P kf key, []] := by
    simp [content, contentSlot, plain, contentItems]
  have set : content P [kf, vf] [key, [.message (P.new v)]] =
      [contentSlot P kf key, [.message (P.new v)]] := by
    rw [content_cons, content_cons, contentSlot_single plain, contentValue_message hv plain,
      content_new, content]
  rw [contentValue, contentValue, hs]
  simp only [hfields, unset, set, fillEntry, entry, hv]

/-- The values of two entries with one key have the same content. -/
theorem contentValue_entry {s : Fin n} {kf vf : Field n} (hs : f.type.messageType? = some s)
    (hfields : (P.desc s).fields = [kf, vf]) (key : List Value) {value value' : List Value}
    (h : contentSlot P vf value = contentSlot P vf value') :
    contentValue P f.type (.message [key, value]) =
      contentValue P f.type (.message [key, value']) := by
  rw [contentValue, contentValue, hs]
  simp only [hfields, content_cons, h]

/-- Of two slots with the same content, both hold a message first or neither does. -/
theorem message_first {s : Fin n} (hs : f.type.messageType? = some s) (plain : P.isMap f = false)
    {a b : List Value} (h : a.map (contentValue P f.type) = b.map (contentValue P f.type)) :
    (∃ sub sub' rest rest', a = .message sub :: rest ∧ b = .message sub' :: rest' ∧
        SameContent P s sub sub') ∨
      ((∀ sub rest, a ≠ .message sub :: rest) ∧ ∀ sub rest, b ≠ .message sub :: rest) := by
  rcases a with _ | ⟨x, a⟩ <;> rcases b with _ | ⟨y, b⟩
  · exact .inr (by simp)
  · simp at h
  · simp at h
  · rw [List.map_cons, List.map_cons] at h
    have head := (List.cons.inj h).1
    cases x with
    | scalar x =>
      cases y with
      | scalar y => exact .inr (by simp)
      | message sub' =>
        rw [contentValue_message hs plain] at head
        simp [contentValue] at head
    | message sub =>
      cases y with
      | scalar y =>
        rw [contentValue_message hs plain] at head
        simp [contentValue] at head
      | message sub' =>
        rw [contentValue_message hs plain, contentValue_message hs plain] at head
        exact .inl ⟨sub, sub', a, b, rfl, rfl, Value.message.inj head⟩

/-- The messages that a field of both holds. -/
theorem SameContent.sub (h : SameContent P t m m') (hf : (P.desc t).fields[i]? = some f)
    {s : Fin n} (hs : f.type.messageType? = some s) (single : f.repeated = false)
    (plain : P.isMap f = false) :
    ∃ sub sub', P.mutableMessage f i m = some sub ∧ P.mutableMessage f i m' = some sub' ∧
      SameContent P s sub sub' := by
  have slots : m[i]?.map (contentSlot P f) = m'[i]?.map (contentSlot P f) := by
    rw [← content_getElem? hf, ← content_getElem? hf, h]
  have kept : ∀ slot, contentSlot P f slot = slot.map (contentValue P f.type) := by
    intro slot
    simp [contentSlot, plain, contentItems_eq_map]
  have new : SameContent P s (P.new s) (P.new s) := rfl
  simp only [Pool.mutableMessage, hs, single, Bool.false_eq_true, ↓reduceIte]
  cases hm : m[i]? with
  | none =>
    cases hm' : m'[i]? with
    | none => exact ⟨P.new s, P.new s, rfl, rfl, new⟩
    | some b => simp [hm, hm'] at slots
  | some a =>
    cases hm' : m'[i]? with
    | none => simp [hm, hm'] at slots
    | some b =>
      simp only [hm, hm', Option.map_some, Option.some.injEq, kept] at slots
      rcases message_first hs plain slots with ⟨sub, sub', rest, rest', rfl, rfl, same⟩ | ⟨ha, hb⟩
      · exact ⟨sub, sub', rfl, rfl, same⟩
      · refine ⟨P.new s, P.new s, ?_, ?_, new⟩
        · split
          next sub rest heq => exact absurd (Option.some.inj heq) (ha sub rest)
          next => rfl
        · split
          next sub rest heq => exact absurd (Option.some.inj heq) (hb sub rest)
          next => rfl

end Content

end Harpia
