/-
# XeusCpp.Validator.Seam — scanning a text that goes on.

What the scan of `t ++ u` does on `t` is what the scan of `t` does, up to the last item of `t`: an
item with text behind it is not changed by more text (`nextItem_append_of_ne`), and so a run keeps
its states (`reaches_append`). The last item may go on into `u`. How far it goes depends on its form
only (`nextItem_seam_token`, `nextItem_seam_directive`, `nextItem_seam_stop`): a blank, a number or an
identifier over the characters of its class, a line comment to the end of the line, the word of a
directive to the next blank.
-/
import XeusCpp.Validator.Scan

namespace XeusCpp.Validator

open XeusCpp.Text XeusCpp.Logic

/-! ## The token at the seam -/

/-- The characters that make a token longer when it ends the text `t`. -/
def tailClass : Str → Byte → Bool
  | [] => fun _ => false
  | c :: _ =>
    match charClass c with
    | .digit => isDigit
    | .word => isIdentChar
    | .blank => isWhitespace
    | _ => fun _ => false

theorem tailClass_cons (c : Byte) (t : Str) : tailClass (c :: t) =
    match charClass c with
    | .digit => isDigit
    | .word => isIdentChar
    | .blank => isWhitespace
    | _ => fun _ => false := rfl

/-- The text `t` is no `/` or `*` that starts a comment sign with the first character of `u`. -/
def NoSign (t u : Str) : Prop :=
  (t = [(('/' : Char) : Byte)] → u.headD 0 ≠ '/' ∧ u.headD 0 ≠ '*') ∧
    (t = [(('*' : Char) : Byte)] → u.headD 0 ≠ '/')

/-- A head that is no comment character makes no sign. -/
theorem noSign_of_head (t : Str) {u : Str} (h : u.headD 0 ≠ '/' ∧ u.headD 0 ≠ '*') : NoSign t u :=
  ⟨fun _ => h, fun _ => h.1⟩

/-- A token that ends a text, lengthened by `n` characters. -/
def Lexeme.extend (l : Lexeme) (n : Nat) : Lexeme := ⟨l.kind, l.length + n, l.advance + n⟩

theorem takeWhile_false (u : Str) : u.takeWhile (fun _ => false) = [] :=
  takeWhile_of_head (by simp)

theorem Lexeme.run_append (k : TokenKind) (P : Byte → Bool) (t u : Str) :
    Lexeme.run k P (t ++ u) = if (Lexeme.run k P t).advance = t.length
      then (Lexeme.run k P t).extend (u.takeWhile P).length else Lexeme.run k P t := by
  unfold Lexeme.run Lexeme.extend
  rw [List.takeWhile_append]
  split
  · rename_i h
    simp [h]
  · rfl

/-- **The token of a text that goes on**: the token of the text, lengthened if it ends the text. -/
theorem lexHead_append {t u : Str} {l : Lexeme} (h : lexHead t = some l) (ht : t ≠ [])
    (hu : NoSign t u) :
    lexHead (t ++ u) = some (if l.advance = t.length
      then l.extend (u.takeWhile (tailClass t)).length else l) := by
  cases t with
  | nil => exact absurd rfl ht
  | cons c t =>
    have hclosed {l : Lexeme} : (if l.advance = (c :: t).length
        then l.extend (u.takeWhile fun _ => false).length else l) = l := by
      rw [takeWhile_false]
      exact ite_self l
    rw [tailClass_cons]
    rcases hu with ⟨hslash, hstar⟩
    cases hcls : charClass c <;> simp only [lexHead, hcls, List.cons_append] at h ⊢
    case quote =>
        rcases Option.map_eq_some_iff.mp h with ⟨n, hn, rfl⟩
        have hq := ne_backslash_of_quote ((charClass_quote_iff c).mp hcls)
        rw [quotedLen_append hq hn u, hclosed]
        rfl
    case digit | word | blank =>
        rw [← Option.some.inj h, ← List.cons_append, Lexeme.run_append]
    case slash =>
        rw [hclosed, ← h]
        cases t with
        | nil =>
            -- the slash ends the text, and `u` makes no comment sign with it
            have hne := hslash (by rw [(charClass_slash_iff c).mp hcls])
            rw [List.nil_append, slashLexeme, if_neg hne.1, if_neg hne.2]
            rfl
        | cons d t => rfl
    case star =>
        rw [hclosed, ← h]
        cases t with
        | nil =>
            have hne := hstar (by rw [(charClass_star_iff c).mp hcls])
            rw [List.nil_append, starLexeme, if_neg hne]
            rfl
        | cons d t => rfl
    all_goals
      rw [hclosed, h]

theorem nextItem_append {b : Bool} {t u : Str} {l : Lexeme} (h : lexHead t = some l) (ht : t ≠ [])
    (hu : NoSign t u) :
    nextItem b (t ++ u) = some (itemOf b l.kind (t.drop l.advance ++
      if l.advance = t.length then u.dropWhile (tailClass t) else u)) := by
  have hle := lexHead_advance_le h ht
  rw [nextItem, lexHead_append h ht hu, Option.map_some]
  by_cases hend : l.advance = t.length
  · rw [if_pos hend, if_pos hend]
    have hdrop : (t ++ u).drop (l.advance + (u.takeWhile (tailClass t)).length) =
        u.dropWhile (tailClass t) := by
      rw [hend, ← List.drop_drop, List.drop_left]
      simpa using drop_add_takeWhile (tailClass t) u 0
    rw [hend, List.drop_length, List.nil_append]
    simp only [Lexeme.extend]
    rw [hdrop]
  · rw [if_neg hend, if_neg hend, List.drop_append_of_le_length hle]

/-! ## The item at the seam -/

theorem wordItem_append_of_ne {w : Str} (h : (wordItem w).2 ≠ []) (u : Str) :
    wordItem (w ++ u) = ((wordItem w).1, (wordItem w).2 ++ u) := by
  have hw : w ≠ [] := by
    rintro rfl
    exact h rfl
  have hhead : (w ++ u).headD 0 = w.headD 0 := by
    cases w with
    | nil => exact absurd rfl hw
    | cons c w => rfl
  unfold wordItem at h ⊢
  rw [hhead]
  split
  · rfl
  · rename_i h0
    rw [if_neg h0] at h
    rw [takeWhile_append_of_ne h, dropWhile_append_of_ne h]

theorem itemOf_append_of_ne {b : Bool} {k : TokenKind} {r : Str} (h : (itemOf b k r).2 ≠ [])
    (u : Str) : itemOf b k (r ++ u) = ((itemOf b k r).1, (itemOf b k r).2 ++ u) := by
  cases b with
  | true => cases k <;> rfl
  | false =>
      cases k
      case comment =>
        show (Item.token .unknown, (r ++ u).dropWhile isLineChar) = _
        rw [dropWhile_append_of_ne h]
        rfl
      case hash =>
        have hne : r.dropWhile isWhitespace ≠ [] := by
          intro h0
          apply h
          show (wordItem (r.dropWhile isWhitespace)).2 = []
          rw [h0]
          rfl
        show wordItem ((r ++ u).dropWhile isWhitespace) = _
        rw [dropWhile_append_of_ne hne]
        exact wordItem_append_of_ne h u
      all_goals rfl

theorem ne_nil_of_nextItem {b : Bool} {t r : Str} {it : Item} (h : nextItem b t = some (it, r))
    (hr : r ≠ []) : t ≠ [] := by
  rintro rfl
  exact hr (Prod.mk.inj (Option.some.inj h)).2.symm

/-- An item with text behind it is not changed by more text. -/
theorem nextItem_append_of_ne {b : Bool} {t r : Str} {it : Item} (h : nextItem b t = some (it, r))
    (hr : r ≠ []) (u : Str) : nextItem b (t ++ u) = some (it, r ++ u) := by
  have ht := ne_nil_of_nextItem h hr
  rcases Option.map_eq_some_iff.mp h with ⟨l, hl, hit⟩
  -- the token does not end the text, so it makes no sign with `u` and is not lengthened
  have hne : t.drop l.advance ≠ [] := by
    intro h0
    have hsuf := itemOf_suffix b l.kind (t.drop l.advance)
    rw [hit, h0, List.suffix_nil] at hsuf
    exact hr hsuf
  have hlen : l.advance ≠ t.length := by
    intro h0
    rw [h0, List.drop_length] at hne
    exact hne rfl
  have hpos := lexHead_advance_pos hl
  have hle := lexHead_advance_le hl ht
  have hu : NoSign t u := by
    constructor
    all_goals
      intro h0
      rw [h0, List.length_singleton] at hle hlen
      omega
  rw [nextItem_append hl ht hu, if_neg hlen, itemOf_append_of_ne (by rw [hit]; exact hr), hit]

/-- The classes over which the last token of a text can go on. -/
def tailClasses : List (Byte → Bool) :=
  [fun _ => false, isDigit, isIdentChar, isWhitespace, isLineChar]

theorem tailClass_mem (t : Str) : tailClass t ∈ tailClasses := by
  unfold tailClass tailClasses
  split
  · simp
  · split <;> simp

/-- No token but a line comment goes on over a line break, and that neither. -/
theorem tailClasses_newline {P : Byte → Bool} (h : P ∈ tailClasses) : P '\n' = false := by
  simp only [tailClasses, List.mem_cons, List.not_mem_nil, or_false] at h
  rcases h with rfl | rfl | rfl | rfl | rfl <;> decide

theorem tailClasses_star {P : Byte → Bool} (h : P ∈ tailClasses) (hP : P '*' = true) :
    P '/' = true := by
  simp only [tailClasses, List.mem_cons, List.not_mem_nil, or_false] at h
  rcases h with rfl | rfl | rfl | rfl | rfl <;> revert hP <;> decide

theorem tailClass_slash (t : Str) : tailClass t '/' = false := by
  cases t with
  | nil => rfl
  | cons c t =>
      rw [tailClass_cons]
      cases charClass c <;> decide

/-- A sign is no longer token: comments and directives end with their first characters. -/
theorem tailClass_of_kind {t : Str} {l : Lexeme} (h : lexHead t = some l)
    (hk : l.kind = .comment ∨ l.kind = .hash) : tailClass t = fun _ => false := by
  cases t with
  | nil => rfl
  | cons c t =>
      unfold tailClass
      cases hcls : charClass c <;> simp only [lexHead, hcls] at h ⊢
      case digit | word | blank =>
        rw [← Option.some.inj h] at hk
        rcases hk with hk | hk <;> exact absurd hk (by simp [Lexeme.run])

theorem noSign_of_kind {t : Str} {l : Lexeme} (h : lexHead t = some l)
    (hk : l.kind = .comment ∨ l.kind = .hash) (u : Str) : NoSign t u := by
  constructor
  all_goals
    rintro rfl
    rw [← Option.some.inj h] at hk
    rcases hk with hk | hk <;> exact absurd hk (by decide)

theorem dropWhile_append_of_nil {α : Type*} {p : α → Bool} {xs : List α} (h : xs.dropWhile p = [])
    (ys : List α) : (xs ++ ys).dropWhile p = ys.dropWhile p := by
  rw [List.dropWhile_append, h]
  rfl

theorem drop_eq_nil_iff_advance {t : Str} {l : Lexeme} (h : lexHead t = some l) (ht : t ≠ []) :
    t.drop l.advance = [] ↔ l.advance = t.length := by
  have := lexHead_advance_le h ht
  rw [List.drop_eq_nil_iff]
  omega

/-- A token item is a line comment with the rest of its line, or the bare token. -/
theorem token_of_itemOf {b : Bool} {k k' : TokenKind} {r r' : Str}
    (h : itemOf b k r = (.token k', r')) :
    (b = false ∧ k = .comment ∧ k' = .unknown ∧ r' = r.dropWhile isLineChar) ∨
      (k' = k ∧ r' = r ∧ ∀ v, itemOf b k v = (.token k, v)) := by
  cases b <;> cases k
  case false.comment =>
    rcases Prod.mk.inj h with ⟨hk, hr⟩
    exact .inl ⟨rfl, rfl, (Item.token.inj hk).symm, hr.symm⟩
  case false.hash =>
    have h' : wordItem (r.dropWhile isWhitespace) = (.token k', r') := h
    unfold wordItem at h'
    split at h' <;> exact absurd (Prod.mk.inj h').1 (by simp)
  case false.eof | true.eof => exact absurd (Prod.mk.inj h).1 (by simp)
  all_goals
    rcases Prod.mk.inj h with ⟨hk, hr⟩
    exact .inr ⟨(Item.token.inj hk).symm, hr.symm, fun _ => rfl⟩

/-- A token that ends a text goes on over the characters of one class; over a `/` goes only a line
comment. -/
theorem nextItem_seam_token {b : Bool} {t : Str} {k : TokenKind} (ht : t ≠ [])
    (h : nextItem b t = some (.token k, [])) : ∃ P ∈ tailClasses,
      (P '/' = true → b = false ∧ lit "//" <+: t) ∧
      ∀ u, NoSign t u → nextItem b (t ++ u) = some (.token k, u.dropWhile P) := by
  rcases Option.map_eq_some_iff.mp h with ⟨l, hl, hit⟩
  rcases token_of_itemOf hit with ⟨rfl, hk, rfl, hend⟩ | ⟨rfl, hend, hkeep⟩
  · -- a line comment goes on to the end of the line
    refine ⟨isLineChar, by simp [tailClasses], fun _ => ⟨rfl, eq_slashes_of_kind hl hk⟩,
      fun u hu => ?_⟩
    rw [nextItem_append hl ht hu, tailClass_of_kind hl (.inl hk), dropWhile_of_head (by simp),
      ite_self, hk]
    show some (Item.token .unknown, (t.drop l.advance ++ u).dropWhile isLineChar) = _
    rw [dropWhile_append_of_nil hend.symm]
  · -- any other token leaves what is behind it
    refine ⟨tailClass t, tailClass_mem t, fun hP => ?_, fun u hu => ?_⟩
    · rw [tailClass_slash] at hP
      exact absurd hP (by decide)
    rw [nextItem_append hl ht hu, if_pos ((drop_eq_nil_iff_advance hl ht).mp hend.symm), ← hend,
      hkeep]
    rfl

/-- A blank is no part of a word, and a word has no blanks. -/
theorem not_raw_of_blank : ∀ c, isWhitespace c = true → isRawChar c = false := by
  decide +kernel

/-- What the item of a directive says about the text behind its `#`. -/
theorem directive_of_itemOf {b : Bool} {k : TokenKind} {r r' w : Str}
    (h : itemOf b k r = (.directive w, r')) :
    b = false ∧ k = .hash ∧ (r.dropWhile isWhitespace).headD 0 ≠ 0 ∧
      w = (r.dropWhile isWhitespace).takeWhile isRawChar ∧
      r' = (r.dropWhile isWhitespace).dropWhile isRawChar := by
  have hk : b = false ∧ k = .hash := by
    cases b <;> cases k <;> simp_all [itemOf]
  rcases hk with ⟨rfl, rfl⟩
  have h' : wordItem (r.dropWhile isWhitespace) = (.directive w, r') := h
  unfold wordItem at h'
  split at h'
  · exact absurd (Prod.mk.inj h').1 (by simp)
  · rename_i h0
    rcases Prod.mk.inj h' with ⟨hw, hr⟩
    exact ⟨rfl, rfl, h0, (Item.directive.inj hw).symm, hr.symm⟩

theorem itemOf_append_word {r w : Str} (hne : r.dropWhile isWhitespace ≠ []) (u : Str)
    (h : itemOf false .hash r = (.directive w, [])) :
    itemOf false .hash (r ++ u) = (.directive (w ++ u.takeWhile isRawChar), u.dropWhile isRawChar) := by
  rcases directive_of_itemOf h with ⟨-, -, h0, hw, hend⟩
  show wordItem ((r ++ u).dropWhile isWhitespace) = _
  rw [dropWhile_append_of_ne hne]
  generalize r.dropWhile isWhitespace = v at *
  have hhead : (v ++ u).headD 0 = v.headD 0 := by
    cases v with
    | nil => exact absurd rfl hne
    | cons c v => rfl
  have htake : v.takeWhile isRawChar = v := by
    have := List.takeWhile_append_dropWhile (p := isRawChar) (l := v)
    rwa [← hend, List.append_nil] at this
  rw [wordItem, hhead, if_neg h0, dropWhile_append_of_nil hend.symm, List.takeWhile_append, htake,
    if_pos rfl, hw, htake]

/-- A directive word that ends a text goes on to the next blank. -/
theorem nextItem_seam_directive {b : Bool} {t w : Str}
    (h : nextItem b t = some (.directive w, [])) : b = false ∧ ∀ u,
      nextItem b (t ++ u) = some (.directive (w ++ u.takeWhile isRawChar), u.dropWhile isRawChar) := by
  rcases Option.map_eq_some_iff.mp h with ⟨l, hl, hit⟩
  rcases directive_of_itemOf hit with ⟨rfl, hk, h0, -, -⟩
  refine ⟨rfl, fun u => ?_⟩
  have ht : t ≠ [] := by
    rintro rfl
    rw [lexHead_nil_kind hl] at hk
    exact absurd hk (by decide)
  have hne : (t.drop l.advance).dropWhile isWhitespace ≠ [] := by
    intro h1
    rw [h1] at h0
    exact h0 rfl
  rw [nextItem_append hl ht (noSign_of_kind hl (.inr hk) u), tailClass_of_kind hl (.inr hk),
    dropWhile_of_head (by simp), ite_self, hk]
  rw [hk] at hit
  rw [itemOf_append_word hne u hit]

/-- A text without NUL ends with the last item before the end. -/
theorem hash_of_stop {b : Bool} {t r : Str} (ht : t ≠ []) (h0 : 0 ∉ t)
    (h : nextItem b t = some (.stop, r)) : b = false ∧ ∃ l, lexHead t = some l ∧ l.kind = .hash ∧
      (t.drop l.advance).dropWhile isWhitespace = [] ∧ r = [] := by
  rcases Option.map_eq_some_iff.mp h with ⟨l, hl, hit⟩
  have hk : l.kind ≠ .eof := fun hk => h0 (zero_mem_of_eof hl ht hk)
  have hbk : b = false ∧ l.kind = .hash := by
    cases b <;> cases hk : l.kind <;> simp_all [itemOf]
  rcases hbk with ⟨rfl, hk⟩
  rw [hk] at hit
  have hit' : wordItem ((t.drop l.advance).dropWhile isWhitespace) = (.stop, r) := hit
  have hmem : 0 ∉ (t.drop l.advance).dropWhile isWhitespace :=
    fun hm => h0 (((List.dropWhile_suffix _).trans (List.drop_suffix _ _)).subset hm)
  unfold wordItem at hit'
  split at hit'
  · rename_i hz
    refine ⟨rfl, l, hl, hk, ?_⟩
    rw [← (Prod.mk.inj hit').2]
    cases hd : (t.drop l.advance).dropWhile isWhitespace with
    | nil => exact ⟨rfl, rfl⟩
    | cons c v =>
        rw [hd] at hz hmem
        exact absurd (hz ▸ List.mem_cons_self) hmem
  · exact absurd (Prod.mk.inj hit').1 (by simp)

/-- A `#` with nothing but blanks behind it takes its word from the text that follows. -/
theorem nextItem_seam_stop {b : Bool} {t r : Str} (ht : t ≠ []) (h0 : 0 ∉ t)
    (h : nextItem b t = some (.stop, r)) : b = false ∧ r = [] ∧ ∀ u,
      nextItem b (t ++ u) = some (wordItem (u.dropWhile isWhitespace)) := by
  rcases hash_of_stop ht h0 h with ⟨rfl, l, hl, hk, hend, hr⟩
  refine ⟨rfl, hr, fun u => ?_⟩
  rw [nextItem_append hl ht (noSign_of_kind hl (.inr hk) u), tailClass_of_kind hl (.inr hk),
    dropWhile_of_head (by simp), ite_self, hk]
  show some (wordItem ((t.drop l.advance ++ u).dropWhile isWhitespace)) = _
  rw [dropWhile_append_of_nil hend]

/-- A scan that ends at a NUL ends there in a longer text. -/
theorem nextItem_append_nul {b : Bool} {t r : Str} (h0 : 0 ∈ t)
    (h : nextItem b t = some (.stop, r)) (u : Str) :
    ∃ r', nextItem b (t ++ u) = some (.stop, r') := by
  rcases Option.map_eq_some_iff.mp h with ⟨l, hl, hit⟩
  have ht : t ≠ [] := List.ne_nil_of_mem h0
  by_cases hk : l.kind = .eof
  · have hu : NoSign t u := by
      constructor <;>
      · rintro rfl
        exact absurd h0 (by decide)
    exact ⟨_, by rw [nextItem_append hl ht hu, hk]; rfl⟩
  · -- the word of a directive starts with the NUL, which is left in the text
    have hbk : b = false ∧ l.kind = .hash := by
      cases b <;> cases hk : l.kind <;> simp_all [itemOf]
    rcases hbk with ⟨rfl, hk⟩
    rcases eq_hash_of_kind hl hk with ⟨t, rfl, hadv⟩
    rw [hk, hadv] at hit
    have hit' : wordItem (t.dropWhile isWhitespace) = (.stop, r) := hit
    -- what is left still has the NUL in it
    have hr : r ≠ [] := by
      rintro rfl
      have hnil : t.dropWhile isWhitespace = [] := by
        unfold wordItem at hit'
        split at hit'
        · exact (Prod.mk.inj hit').2
        · exact absurd (Prod.mk.inj hit').1 (by simp)
      rcases List.mem_cons.mp h0 with hc | hc
      · exact absurd hc (by decide)
      · exact absurd (List.dropWhile_eq_nil_iff.mp hnil 0 hc) (by decide)
    exact ⟨r ++ u, nextItem_append_of_ne h hr u⟩

/-! ## Runs over a text that goes on -/

/-- The same place in a longer text. -/
def Config.append (c : Config) (u : Str) : Config := ⟨c.stack, c.last, c.text ++ u⟩

theorem scanMove_append {c c' : Config} (h : scanMove c = .next c') (hne : c'.text ≠ []) (u : Str) :
    scanMove (c.append u) = .next (c'.append u) := by
  rcases scanMove_eq_next_iff.mp h with ⟨it, hn, hit, hr, hl⟩
  exact scanMove_eq_next_iff.mpr ⟨it, nextItem_append_of_ne hn hne u, hit, hr, hl⟩

theorem text_suffix_of_next {c c' : Config} (h : scanMove c = .next c') :
    c'.text <:+ c.text.drop 1 := by
  rcases scanMove_eq_next_iff.mp h with ⟨it, hn, -⟩
  exact suffix_of_nextItem hn

theorem text_suffix_of_reaches {c c' : Config} (h : scanner.Reaches c c') : c'.text <:+ c.text :=
  h.preserves (I := fun a => a.text <:+ c.text)
    (fun ha hab => ((text_suffix_of_next hab).trans (List.drop_suffix _ _)).trans ha)
    (List.suffix_refl _)

/-- **A run keeps its states** when the text goes on, up to the last item of the text. -/
theorem reaches_append {c b : Config} (h : scanner.Reaches c b) (hne : b.text ≠ []) (u : Str) :
    scanner.Reaches (c.append u) (b.append u) := by
  induction h with
  | refl => exact .refl _
  | @tail a b _ hab ih =>
      have ha : a.text ≠ [] := by
        intro h0
        have hs := text_suffix_of_next hab
        rw [h0, List.drop_nil, List.suffix_nil] at hs
        exact hne hs
      exact (ih ha).tail (scanMove_append hab hne u)

/-- The scan from `c` reads the item `it` at `b`, and the text ends with it. -/
structure LastRead (c b : Config) (it : Item) : Prop where
  reaches : scanner.Reaches c b
  ne_nil : b.text ≠ []
  item : nextItem (inBlockComment b.stack) b.text = some (it, [])

/-- What is put behind the text is read from the last item on. -/
theorem LastRead.run_append {c b : Config} {it : Item} (h : LastRead c b it) (u : Str) :
    scanner.run (c.append u) = scanner.run (b.append u) :=
  Machine.run_eq_of_reaches (reaches_append h.reaches h.ne_nil u)

/-- A text has one last item. -/
theorem LastRead.unique {c b b' : Config} {it it' : Item} (h : LastRead c b it)
    (h' : LastRead c b' it') : b = b' ∧ it = it' := by
  have key {b b' : Config} {it : Item} (h : LastRead c b it) (hne : b'.text ≠ [])
      (hbb : scanner.Reaches b b') : b = b' := by
    rcases Relation.ReflTransGen.cases_head hbb with heq | ⟨e, hbe, heb⟩
    · exact heq
    · -- behind the last item the text is at its end
      rcases scanMove_eq_next_iff.mp hbe with ⟨it', hn, -⟩
      have hnil : e.text = [] := (Prod.mk.inj (Option.some.inj (hn.symm.trans h.item))).2
      exact absurd (List.suffix_nil.mp (hnil ▸ text_suffix_of_reaches heb)) hne
  have hbb : b = b' := by
    rcases h.reaches.total h'.reaches with hr | hr
    · exact key h h'.ne_nil hr
    · exact (key h' h.ne_nil hr).symm
  subst hbb
  exact ⟨rfl, (Prod.mk.inj (Option.some.inj (h.item.symm.trans h'.item))).1⟩

theorem eq_of_reaches_nil {c e : Config} (h : scanner.Reaches c e) (hc : c.text = []) : e = c := by
  rcases Relation.ReflTransGen.cases_head h with rfl | ⟨b, hcb, -⟩
  · rfl
  · rcases scanMove_eq_next_iff.mp hcb with ⟨it, hn, hit, -⟩
    rw [hc] at hn
    exact absurd (Prod.mk.inj (Option.some.inj hn)).1.symm hit

/-- A run to the end of a text that is not empty reads a last item. -/
theorem lastRead_of_reaches {c e : Config} (h : scanner.Reaches c e) (he : e.text = [])
    (hc : c.text ≠ []) : ∃ b it, LastRead c b it ∧ it ≠ .stop ∧ react b.stack it = some e.stack ∧
      e.last = lastAfter b.last it.kind := by
  rcases Relation.ReflTransGen.cases_tail h with rfl | ⟨b, hcb, hbe⟩
  · exact absurd he hc
  · rcases scanMove_eq_next_iff.mp hbe with ⟨it, hn, hit, hr, hl⟩
    have hne : b.text ≠ [] := by
      intro h0
      rw [h0] at hn
      exact hit (Prod.mk.inj (Option.some.inj hn)).1.symm
    exact ⟨b, it, ⟨hcb, hne, he ▸ hn⟩, hit, hr, hl⟩

/-- A `/` or a `*` at the end of a text is a token that leaves the stack. -/
theorem inert_of_sign {b : Bool} {t r : Str} {it : Item} (ht : t = lit "/" ∨ t = lit "*")
    (hn : nextItem b t = some (it, r)) : ∃ k, it = .token k ∧ k.isInert = true := by
  rcases ht with rfl | rfl
  · refine ⟨.slash, ?_, rfl⟩
    cases b <;> exact (Prod.mk.inj (Option.some.inj hn)).1.symm
  · refine ⟨.asterik, ?_, rfl⟩
    cases b <;> exact (Prod.mk.inj (Option.some.inj hn)).1.symm

/-- What a token takes of the text behind it, unless it is a line comment, makes no difference. -/
theorem run_dropWhile_tail {P : Byte → Bool} (hP : P ∈ tailClasses) (hslash : P '/' = false) {u : Str}
    (hu : ∀ d ∈ u.head?, isIdentChar d = false) (st : Stack) (l : TokenKind) :
    scanner.run ⟨st, l, u.dropWhile P⟩ = scanner.run ⟨st, l, u⟩ := by
  have hdigit : ∀ d ∈ u.head?, isDigit d = false := fun d hd => not_digit_of_not_ident (hu d hd)
  simp only [tailClasses, List.mem_cons, List.not_mem_nil, or_false] at hP
  rcases hP with rfl | rfl | rfl | rfl | rfl
  · rw [dropWhile_of_head (by simp)]
  · rw [dropWhile_of_head hdigit]
  · rw [dropWhile_of_head hu]
  · exact (run_dropBlanks st l u).symm
  · exact absurd hslash (by decide)

/-- **Where the scan comes to the end of the text**, it goes on with what is put behind it. -/
theorem run_append_of_end {c : Config} {st : Stack} {l : TokenKind}
    (hr : scanner.Reaches c ⟨st, l, []⟩) {u : Str} (hu : ∀ d ∈ u.head?, isIdentChar d = false)
    (hline : ∀ b it, LastRead c b it → inBlockComment b.stack = false → ¬ lit "//" <+: b.text)
    (hdir : ∀ b w, LastRead c b (.directive w) → react b.stack (.directive w) = some st →
      ∀ d ∈ u.head?, isRawChar d = false)
    (hsign : ∀ b it, LastRead c b it → NoSign b.text u) :
    scanner.run (c.append u) = scanner.run ⟨st, l, u⟩ := by
  by_cases hc : c.text = []
  · have heq := eq_of_reaches_nil hr hc
    rw [← heq]
    rfl
  rcases lastRead_of_reaches hr rfl hc with ⟨b, it, hlast, hit, hst, hl⟩
  have hl' : l = lastAfter b.last it.kind := hl
  rw [hlast.run_append u, hl']
  cases it with
  | stop => exact absurd rfl hit
  | directive w =>
      have hhead := hdir b w hlast hst
      have hn := (nextItem_seam_directive hlast.item).2 u
      rw [takeWhile_of_head hhead, List.append_nil, dropWhile_of_head hhead] at hn
      exact run_of_item (c := b.append u) hn (Item.directive_ne_stop w) hst
  | token k =>
      rcases nextItem_seam_token hlast.ne_nil hlast.item with ⟨P, hPmem, hcomment, hP⟩
      have hslash : P '/' = false := by
        rw [← Bool.not_eq_true]
        intro hp
        rcases hcomment hp with ⟨hb, hpre⟩
        exact hline b _ hlast hb hpre
      rw [← run_dropWhile_tail hPmem hslash hu]
      exact run_of_item (c := b.append u) (hP u (hsign b _ hlast)) (Item.token_ne_stop k) hst

/-- **A rejected item is rejected in a longer text**, unless the text makes another sign or another
directive of it. -/
theorem run_append_of_rejected {c e : Config} {it : Item} {r u : Str} (he : scanner.Reaches c e)
    (hn : nextItem (inBlockComment e.stack) e.text = some (it, r)) (hr : react e.stack it = none)
    (hsign : NoSign e.text u) (hdir : ∀ w, it = .directive w → r = [] →
      react e.stack (.directive (w ++ u.takeWhile isRawChar)) = none) :
    scanner.run (c.append u) = some ⟨e.stack, e.last, true⟩ := by
  have hit : it ≠ .stop := by
    rintro rfl
    rw [react_stop] at hr
    exact absurd hr (by simp)
  have hne : e.text ≠ [] := by
    intro h0
    rw [h0] at hn
    exact hit (Prod.mk.inj (Option.some.inj hn)).1.symm
  -- the longer text has a rejected item at the same place
  have hsame : ∃ it' r', nextItem (inBlockComment e.stack) (e.text ++ u) = some (it', r') ∧
      it' ≠ .stop ∧ react e.stack it' = none := by
    by_cases hrest : r = []
    · subst hrest
      cases it with
      | stop => exact absurd rfl hit
      | token k =>
          rcases nextItem_seam_token hne hn with ⟨P, -, -, hP⟩
          exact ⟨_, _, hP u hsign, hit, hr⟩
      | directive w =>
          rcases nextItem_seam_directive hn with ⟨-, hw⟩
          exact ⟨_, _, hw u, Item.directive_ne_stop _, hdir w rfl rfl⟩
    · exact ⟨_, _, nextItem_append_of_ne hn hrest u, hit, hr⟩
  rcases hsame with ⟨it', r', hn', hit', hr'⟩
  rw [Machine.run_eq_of_reaches (reaches_append he hne u)]
  exact run_of_reject hn' hit' hr'

/-! ## The start of a text that goes on -/

theorem beginsTemplate_eq (input : Str) : beginsTemplate input =
    ((input.dropWhile isWhitespace).takeWhile isIdentChar == lit "template") := by
  unfold beginsTemplate
  cases input.dropWhile isWhitespace with
  | nil => rfl
  | cons c t =>
      by_cases hcls : charClass c = .word
      · have htake : (c :: t).take ((c :: t).takeWhile isIdentChar).length =
            (c :: t).takeWhile isIdentChar := identifier_takeWhile .ident isIdentChar (c :: t) 0
        simp only [lexHead, hcls, Lexeme.run, Option.any_some, htake]
        simp
      · -- a token of another class is no identifier, and the word does not start with `t`
        have hne : ((c :: t).takeWhile isIdentChar == lit "template") = false := by
          rw [beq_eq_false_iff_ne]
          intro h
          have hc : c = 't' := by
            by_cases hp : isIdentChar c = true
            · rw [List.takeWhile_cons_of_pos hp] at h
              exact (List.cons.inj h).1
            · rw [List.takeWhile_cons_of_neg hp] at h
              exact absurd h (by decide)
          exact hcls (hc ▸ by decide)
        rw [hne]
        show (lexHead (c :: t)).any _ = false
        cases hl : lexHead (c :: t) with
        | none => rfl
        | some l =>
            have hk : l.kind ≠ .ident := fun hk => hcls ((head_of_kind hl).2.1 hk)
            simp [hk]

/-- A text whose first word ends inside it starts as every longer text does. -/
theorem start_append_of_ne (v : XInputValidator) {A : Str}
    (h : (A.dropWhile isWhitespace).dropWhile isIdentChar ≠ []) (u : Str) :
    v.start (A ++ u) = (v.start A).append u := by
  have hne : A.dropWhile isWhitespace ≠ [] := by
    intro h0
    rw [h0] at h
    exact h rfl
  have hb : beginsTemplate (A ++ u) = beginsTemplate A := by
    rw [beginsTemplate_eq, beginsTemplate_eq, dropWhile_append_of_ne hne, takeWhile_append_of_ne h]
  simp only [XInputValidator.start, Config.append, startStack, hb]

/-- So does every text, when it goes on with no word. -/
theorem start_append_of_head (v : XInputValidator) (A : Str) {u : Str}
    (hu : ∀ d ∈ u.head?, isIdentChar d = false) (hb : beginsTemplate u = false) :
    v.start (A ++ u) = (v.start A).append u := by
  have hb : beginsTemplate (A ++ u) = beginsTemplate A := by
    by_cases hnil : A.dropWhile isWhitespace = []
    · have hA : beginsTemplate A = false := by
        rw [beginsTemplate_eq, hnil]
        decide
      rw [hA, ← hb, beginsTemplate_eq, beginsTemplate_eq, dropWhile_append_of_nil hnil]
    · rw [beginsTemplate_eq, beginsTemplate_eq, dropWhile_append_of_ne hnil, List.takeWhile_append,
        takeWhile_of_head hu, List.append_nil]
      split
      · rename_i h
        rw [List.IsPrefix.eq_of_length (List.takeWhile_prefix _) h]
      · rfl
  simp only [XInputValidator.start, Config.append, startStack, hb]

theorem beginsTemplate_of_head {u : Str}
    (hu : ∀ d ∈ u.head?, isIdentChar d = false ∧ isWhitespace d = false) :
    beginsTemplate u = false := by
  cases u with
  | nil => decide
  | cons d u =>
      rcases hu d rfl with ⟨hd, hw⟩
      rw [beginsTemplate_eq, List.dropWhile_cons_of_neg (by simp [hw]),
        List.takeWhile_cons_of_neg (by simp [hd])]
      decide

end XeusCpp.Validator
