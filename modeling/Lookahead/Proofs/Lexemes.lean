import Mathlib.Data.List.TakeWhile
import Mathlib.Tactic.Conv
import Lookahead.Proofs.Slices
import Lookahead.Token.Scan

/-!
# What texts are made of

A grammar text is cut into tokens and into what is passed over: blanks, comments up to the end of
their line, and comments between marks that nest (`Token.Layout`). The scanner takes one of these
from the front of a text (`Token.scan_eq_ok`), and every kind of token has its own look
(`Token.Looks`). So the tokens of a text that is read to its end and what lies between them are all
of the text (`Token.lossless_of_read`).
-/

namespace Lookahead.Token

/-! ### Layout -/

/-- The end of a line: carriage returns and a line feed, or a single carriage return. -/
def LineEnd (e : List Char) : Prop :=
  (∃ n, e = List.replicate n '\r' ++ ['\n']) ∨ e = ['\r']

/-- A comment up to the end of its line. -/
def LineComment (text : List Char) : Prop :=
  ∃ body e, text = '/' :: '/' :: (body ++ e) ∧ (∀ c ∈ body, c ≠ '\r' ∧ c ≠ '\n') ∧ LineEnd e

/-- The marks of comments in a text, from left to right: `true` opens a comment and `false` closes
one. No character belongs to two of them. -/
def marks : List Char → List Bool
  | '/' :: '*' :: cs => true :: marks cs
  | '*' :: '/' :: cs => false :: marks cs
  | _ :: cs => marks cs
  | [] => []

/-- Every mark that opens a comment has one that closes it. -/
inductive Balanced : List Bool → Prop
  | nil : Balanced []
  | nest {l m : List Bool} (hl : Balanced l) (hm : Balanced m) : Balanced (true :: (l ++ false :: m))

/-- A comment from the mark that opens it to the one that closes it. -/
def BlockComment (text : List Char) : Prop :=
  ∃ body l, text = '/' :: '*' :: (body ++ ['*', '/']) ∧ Balanced l ∧
    marks text = true :: (l ++ [false])

/-- Text without tokens. -/
inductive Layout : List Char → Prop
  | nil : Layout []
  | blank {c : Char} {text : List Char} (hc : isBlank c = true) (h : Layout text) :
      Layout (c :: text)
  | line {comment text : List Char} (hc : LineComment comment) (h : Layout text) :
      Layout (comment ++ text)
  | block {comment text : List Char} (hc : BlockComment comment) (h : Layout text) :
      Layout (comment ++ text)

theorem Layout.append {text rest : List Char} (h : Layout text) (hr : Layout rest) :
    Layout (text ++ rest) := by
  induction h with
  | nil => exact hr
  | blank hc _ ih => exact .blank hc ih
  | line hc _ ih =>
    rw [List.append_assoc]
    exact .line hc ih
  | block hc _ ih =>
    rw [List.append_assoc]
    exact .block hc ih

theorem layout_of_blanks {text : List Char} (h : ∀ c ∈ text, isBlank c = true) : Layout text := by
  induction text with
  | nil => exact .nil
  | cons c text ih =>
    obtain ⟨hc, hr⟩ := List.forall_mem_cons.mp h
    exact .blank hc (ih hr)

/-- The text starts with something that tokens never start with. -/
def startsLayout : List Char → Bool
  | '/' :: '/' :: _ => true
  | '/' :: '*' :: _ => true
  | c :: _ => isBlank c
  | [] => false

theorem startsLayout_cons {c : Char} {text : List Char} (hc : c ≠ '/') :
    startsLayout (c :: text) = isBlank c := by
  unfold startsLayout
  split
  · rename_i h
    exact absurd (List.cons.inj h).1 hc
  · rename_i h
    exact absurd (List.cons.inj h).1 hc
  · rename_i h
    cases h
    rfl
  · rename_i h
    cases h

/-! ### Tokens -/

/-- How the text of a token looks. -/
inductive Looks : Kind → List Char → Prop
  | punctuation {k : Kind} {c : Char} (h : punctuation? c = some k) : Looks k [c]
  | dotDot : Looks .dotDot ['.', '.']
  | word {c : Char} {cs : List Char} (hc : alphabet.startsIdentifier c = true)
      (hcs : ∀ d ∈ cs, alphabet.isWordChar d = true) : Looks (wordKind (c :: cs)) (c :: cs)
  | string (body : List Char) : Looks .string ('"' :: (body ++ ['"']))
  | char (body : List Char) : Looks .char ('\'' :: (body ++ ['\'']))
  | unterminated {q : Char} (hq : q = '"' ∨ q = '\'') (body : List Char) {e : List Char}
      (he : LineEnd e) : Looks .unterminated (q :: (body ++ e))
  | attributes (body : List Char) : Looks .attributes ('<' :: (body ++ ['>']))
  | action (body : List Char) : Looks .action ('(' :: '.' :: (body ++ ['.', ')']))
  | resolver {blanks : List Char} (hb : ∀ c ∈ blanks, isBlank c = true) (body : List Char) :
      Looks .resolver ('I' :: 'F' :: (blanks ++ '(' :: (body ++ [')'])))
  | directive {body : List Char} (hb : body ≠ []) : Looks .directive ('$' :: body)

theorem ne_of_startsIdentifier {c d : Char} (hc : alphabet.startsIdentifier c = true)
    (hd : alphabet.startsIdentifier d = false) : c ≠ d := by
  rintro rfl
  rw [hc] at hd
  cases hd

theorem not_blank_of_startsIdentifier {c : Char} (hc : alphabet.startsIdentifier c = true) :
    isBlank c = false := by
  simp only [isBlank, Bool.or_eq_false_iff, beq_eq_false_iff_ne]
  refine ⟨⟨⟨?_, ?_⟩, ?_⟩, ?_⟩ <;> exact ne_of_startsIdentifier hc (by decide)

/-- No token looks like the start of what is passed over. -/
theorem Looks.not_startsLayout {k : Kind} {text : List Char} (h : Looks k text) :
    startsLayout text = false := by
  cases h with
  | @punctuation k c hp =>
    unfold punctuation? at hp
    split at hp <;> first | rfl | cases hp
  | word hc _ =>
    rw [startsLayout_cons (ne_of_startsIdentifier hc (by decide))]
    exact not_blank_of_startsIdentifier hc
  | unterminated hq => rcases hq with rfl | rfl <;> rfl
  | _ => rfl

theorem Looks.ne_nil {k : Kind} {text : List Char} (h : Looks k text) : text ≠ [] := by
  cases h <;> simp

/-! ### Lengths -/

section

variable {cs ds : List Char} {m n : Nat}

theorem takeWhile_eq_replicate (q : Char) (cs : List Char) :
    cs.takeWhile (· == q) = List.replicate (cs.takeWhile (· == q)).length q :=
  List.eq_replicate_iff.mpr ⟨rfl, fun c hc => by simpa using List.mem_takeWhile_imp hc⟩

theorem eq_append_of_drop {cs es ds : List Char} (h : cs.drop es.length = ds) (he : es <+: cs) :
    cs = es ++ ds := by
  obtain ⟨rs, rfl⟩ := he
  rw [List.drop_left] at h
  rw [h]

/-- What counts as the end of a line is one. -/
theorem exists_lineEnd (h : lineEndLength cs ≠ 0) :
    ∃ e rest, cs = e ++ rest ∧ lineEndLength cs = e.length ∧ LineEnd e := by
  have hprefix : cs.takeWhile (· == '\r') <+: cs := List.takeWhile_prefix _
  have hreplicate := takeWhile_eq_replicate '\r' cs
  unfold lineEndLength at h ⊢
  generalize cs.takeWhile (· == '\r') = rs at h hprefix hreplicate
  dsimp only at h ⊢
  split at h
  · rename_i ds hd
    have hcs := eq_append_of_drop hd hprefix
    exact ⟨rs ++ ['\n'], ds, by simpa using hcs, by simp, .inl ⟨rs.length, by rw [← hreplicate]⟩⟩
  · cases rs with
    | nil => simp at h
    | cons r rs =>
      obtain ⟨ds, rfl⟩ := hprefix
      obtain rfl : r = '\r' := by
        rw [List.length_cons, List.replicate_succ] at hreplicate
        exact (List.cons.inj hreplicate).1
      exact ⟨['\r'], rs ++ ds, by simp, by simp, .inr rfl⟩

theorem lineEndLength_cons_ne_zero {c : Char} (cs : List Char) (hc : c = '\r' ∨ c = '\n') :
    lineEndLength (c :: cs) ≠ 0 := by
  unfold lineEndLength
  rcases hc with rfl | rfl
  · simp only [List.takeWhile_cons, beq_self_eq_true, if_true, List.length_cons, ne_eq]
    split <;> omega
  · simp

/-- A line is commented out up to its end. -/
theorem exists_lineComment (h : lineCommentLength ds = .ok m) :
    ∃ text rest, '/' :: '/' :: ds = text ++ rest ∧ m = text.length ∧ LineComment text := by
  have hbody : ∀ c ∈ ds.takeWhile fun c => c != '\r' && c != '\n', c ≠ '\r' ∧ c ≠ '\n' :=
    fun c hc => by simpa using List.mem_takeWhile_imp hc
  have hsplit := List.takeWhile_append_dropWhile (p := fun c => c != '\r' && c != '\n') (l := ds)
  have hstop : ∀ c tail, ds.dropWhile (fun c => c != '\r' && c != '\n') = c :: tail →
      c = '\r' ∨ c = '\n' := by
    intro c tail hd
    have := ds.head?_dropWhile_not fun c => c != '\r' && c != '\n'
    rw [hd, List.head?_cons] at this
    simpa [imp_iff_not_or, not_not] using this
  unfold lineCommentLength at h
  generalize ds.takeWhile (fun c => c != '\r' && c != '\n') = body at h hbody hsplit
  generalize ds.dropWhile (fun c => c != '\r' && c != '\n') = tail at hsplit hstop
  subst hsplit
  cases tail with
  | nil => simp at h
  | cons c tail =>
    have hc := hstop c tail rfl
    obtain ⟨e, rest, he, hl, hend⟩ := exists_lineEnd (lineEndLength_cons_ne_zero tail hc)
    simp only [List.length_append, List.length_cons, List.drop_left] at h
    rw [if_neg (by omega), Except.ok.injEq] at h
    refine ⟨'/' :: '/' :: (body ++ e), rest, by simp [he], ?_, body, e, rfl, hbody, hend⟩
    simp only [List.length_cons, List.length_append]
    omega

/-- The marks that close as many comments as are open. -/
def Closes : Nat → List Bool → Prop
  | 0, l => l = []
  | depth + 1, l => ∃ b m, Balanced b ∧ l = b ++ false :: m ∧ Closes depth m

theorem Closes.nest {depth : Nat} {l : List Bool} (h : Closes (depth + 2) l) :
    Closes (depth + 1) (true :: l) := by
  obtain ⟨b, m, hb, rfl, c, r, hc, rfl, hr⟩ := h
  exact ⟨true :: (b ++ false :: c), r, .nest hb hc, by simp, hr⟩

/-- The marks in front of the one that closes the last open comment. -/
structure ClosesBehind (depth : Nat) (l : List Bool) : Prop where
  closes : Closes depth (l ++ [false])
  count : l.count false + 1 = l.count true + depth
  first : ∀ k, k <+: l → k.count false < k.count true + depth

namespace ClosesBehind

variable {depth : Nat} {l : List Bool}

theorem nil : ClosesBehind 1 [] where
  closes := ⟨[], [], .nil, rfl, rfl⟩
  count := rfl
  first k hk := by
    rw [List.prefix_nil.mp hk]
    exact Nat.one_pos

theorem nest (hd : depth ≠ 0) (h : ClosesBehind (depth + 1) l) :
    ClosesBehind depth (true :: l) where
  closes := by
    obtain ⟨depth, rfl⟩ := Nat.exists_eq_add_one_of_ne_zero hd
    exact h.closes.nest
  count := by
    have := h.count
    rw [List.count_cons_self, List.count_cons_of_ne (by decide)]
    omega
  first k hk := by
    cases k with
    | nil => exact Nat.pos_of_ne_zero (by simpa using hd)
    | cons b k =>
      obtain ⟨rfl, htail⟩ := List.cons_prefix_cons.mp hk
      have := h.first k htail
      rw [List.count_cons_self, List.count_cons_of_ne (by decide)]
      omega

theorem close (h : ClosesBehind depth l) : ClosesBehind (depth + 1) (false :: l) where
  closes := ⟨[], l ++ [false], .nil, rfl, h.closes⟩
  count := by
    have := h.count
    rw [List.count_cons_self, List.count_cons_of_ne (by decide)]
    omega
  first k hk := by
    cases k with
    | nil => exact Nat.succ_pos _
    | cons b k =>
      obtain ⟨rfl, htail⟩ := List.cons_prefix_cons.mp hk
      have := h.first k htail
      rw [List.count_cons_self, List.count_cons_of_ne (by decide)]
      omega

end ClosesBehind

theorem marks_cons_of_ne {c : Char} {text : List Char}
    (hopen : ∀ l, c :: text ≠ '/' :: '*' :: l) (hclose : ∀ l, c :: text ≠ '*' :: '/' :: l) :
    marks (c :: text) = marks text := by
  conv_lhs => unfold marks
  split
  · rename_i h
    exact absurd h (hopen _)
  · rename_i h
    exact absurd h (hclose _)
  · rename_i h
    cases h
    rfl
  · rename_i h
    cases h

/-- Without a mark at the start of a text there is none at the start of a part of it. -/
theorem marks_cons_of_prefix {c : Char} {text : List Char} (ht : text <+: ds)
    (hopen : ∀ l, c = '/' → ds = '*' :: l → False)
    (hclose : ∀ l, c = '*' → ds = '/' :: l → False) : marks (c :: text) = marks text := by
  obtain ⟨more, rfl⟩ := ht
  refine marks_cons_of_ne (fun l hl => ?_) fun l hl => ?_
  · cases hl
    exact hopen (l ++ more) rfl rfl
  · cases hl
    exact hclose (l ++ more) rfl rfl

/-- The text up to where the last open comment is closed. -/
theorem exists_closes {depth passed : Nat} (hd : depth ≠ 0)
    (h : blockCommentLength depth n passed ds = .ok m) : ∃ body rest,
      ds = body ++ '*' :: '/' :: rest ∧ m = n + body.length + 2 ∧
      marks (body ++ ['*', '/']) = marks body ++ [false] ∧ ClosesBehind depth (marks body) := by
  induction depth, n, passed, ds using blockCommentLength.induct with
  | case1 => simp [blockCommentLength] at h
  | case2 depth n passed ds ih =>
    rw [blockCommentLength] at h
    obtain ⟨body, rest, rfl, hm, hmarks, hc⟩ := ih (by omega) h
    exact ⟨'/' :: '*' :: body, rest, rfl, by simp; omega, by simp [marks, hmarks], hc.nest hd⟩
  | case3 depth n passed ds hle =>
    rw [blockCommentLength, if_pos hle, Except.ok.injEq] at h
    obtain rfl : depth = 1 := by omega
    exact ⟨[], ds, rfl, by simp; omega, rfl, .nil⟩
  | case4 depth n passed ds hle ih =>
    rw [blockCommentLength, if_neg hle] at h
    obtain ⟨body, rest, rfl, hm, hmarks, hc⟩ := ih (by omega) h
    obtain ⟨depth, rfl⟩ := Nat.exists_eq_add_one_of_ne_zero hd
    exact ⟨'*' :: '/' :: body, rest, rfl, by simp; omega, by simp [marks, hmarks], hc.close⟩
  | case5 depth n passed c ds hopen hclose ih =>
    rw [blockCommentLength] at h
    · obtain ⟨body, rest, rfl, hm, hmarks, hc⟩ := ih hd h
      have hbody := marks_cons_of_prefix ⟨'*' :: '/' :: rest, rfl⟩ hopen hclose
      refine ⟨c :: body, rest, rfl, by simp; omega, ?_, by rwa [hbody]⟩
      rw [List.cons_append, marks_cons_of_prefix ⟨rest, by simp⟩ hopen hclose, hbody, hmarks]
    · exact hopen
    · exact hclose

/-- A comment is passed over up to the mark that closes it. -/
theorem exists_blockComment (h : blockCommentLength 1 2 0 ds = .ok m) :
    ∃ text rest, '/' :: '*' :: ds = text ++ rest ∧ m = text.length ∧ BlockComment text := by
  obtain ⟨body, rest, rfl, hm, hmarks, hc⟩ := exists_closes Nat.one_ne_zero h
  obtain ⟨b, l, hb, hl, rfl⟩ := hc.closes
  refine ⟨'/' :: '*' :: (body ++ ['*', '/']), rest, by simp, by simp; omega, body, b, rfl, hb, ?_⟩
  rw [marks, hmarks, hl]

/-- A literal ends with its quote, or with its line. -/
theorem exists_literal {q : Char} {closed : Bool} (h : literalLength q ds = some (closed, n)) :
    ∃ body e rest, ds = body ++ e ++ rest ∧ n = (body ++ e).length ∧
      if closed then e = [q] else LineEnd e := by
  induction ds using literalLength.induct q generalizing n with
  | case1 => simp [literalLength] at h
  | case2 c ds ih =>
    rw [literalLength, Option.map_eq_some_iff] at h
    obtain ⟨⟨b, m⟩, hm, h⟩ := h
    cases h
    obtain ⟨body, e, rest, rfl, rfl, he⟩ := ih hm
    exact ⟨'\\' :: c :: body, e, rest, rfl, rfl, he⟩
  | case3 ds hesc =>
    rw [literalLength, if_pos rfl] at h
    · cases h
      exact ⟨[], [q], ds, rfl, rfl, rfl⟩
    · exact hesc
  | case4 c ds hesc hq hend =>
    rw [literalLength, if_neg hq, if_pos hend] at h
    · cases h
      obtain ⟨e, rest, he, hl, hline⟩ := exists_lineEnd hend
      exact ⟨[], e, rest, he, hl, hline⟩
    · exact hesc
  | case5 c ds hesc hq hend ih =>
    rw [literalLength, if_neg hq, if_neg hend, Option.map_eq_some_iff] at h
    · obtain ⟨⟨b, m⟩, hm, h⟩ := h
      cases h
      obtain ⟨body, e, rest, rfl, rfl, he⟩ := ih hm
      exact ⟨c :: body, e, rest, rfl, rfl, he⟩
    · exact hesc

/-- Up to the closing bracket there are always more brackets open than closed. -/
theorem exists_balanced {opening closing : Char} (hne : opening ≠ closing) {depth : Nat}
    (hd : depth ≠ 0) (h : balancedLength opening closing depth ds = some n) : ∃ body rest,
      ds = body ++ closing :: rest ∧ n = body.length + 1 ∧
      body.count closing + 1 = body.count opening + depth ∧
      ∀ us, us ++ [closing] <+: body → us.count closing + 1 < us.count opening + depth := by
  induction ds generalizing depth n with
  | nil => cases h
  | cons c ds ih =>
    have hmore {depth' : Nat} (hd' : depth' ≠ 0) (hdepth : depth' + (if c = closing then 1 else 0) =
          depth + if c = opening then 1 else 0)
        (h : (balancedLength opening closing depth' ds).map (· + 1) = some n) : ∃ body rest,
          c :: ds = body ++ closing :: rest ∧ n = body.length + 1 ∧
          body.count closing + 1 = body.count opening + depth ∧
          ∀ us, us ++ [closing] <+: body → us.count closing + 1 < us.count opening + depth := by
      obtain ⟨m, hm, rfl⟩ := Option.map_eq_some_iff.mp h
      obtain ⟨body, rest, rfl, rfl, hcount, hfirst⟩ := ih hd' hm
      refine ⟨c :: body, rest, rfl, rfl, ?_, fun us hus => ?_⟩
      · simp only [List.count_cons, beq_iff_eq]
        omega
      · cases us with
        | nil =>
          obtain ⟨rfl, -⟩ := List.cons_prefix_cons.mp hus
          rw [if_pos rfl, if_neg hne.symm] at hdepth
          simp
          omega
        | cons u us =>
          obtain ⟨rfl, htail⟩ := List.cons_prefix_cons.mp hus
          have := hfirst us htail
          simp only [List.count_cons, beq_iff_eq]
          omega
    rw [balancedLength] at h
    split at h
    · rename_i hc
      split at h
      · cases h
        refine ⟨[], ds, by rw [hc]; rfl, rfl, by simp; omega, fun us hus => ?_⟩
        exact absurd (List.prefix_nil.mp hus) (by simp)
      · refine hmore (by omega) ?_ h
        rw [if_pos hc, if_neg (hc ▸ hne.symm)]
        omega
    · rename_i hc
      split at h
      · rename_i ho
        exact hmore (Nat.succ_ne_zero _) (by rw [if_neg hc, if_pos ho]) h
      · rename_i ho
        exact hmore hd (by rw [if_neg hc, if_neg ho]) h

/-- The text up to the first mark that closes an action. -/
theorem exists_action (h : actionLength ds = some n) :
    ∃ body rest, ds = body ++ '.' :: ')' :: rest ∧ n = body.length + 2 ∧
      ∀ us, us ++ ['.', ')'] <+: body ++ ['.', ')'] → us = body := by
  induction ds using actionLength.induct generalizing n with
  | case1 => simp [actionLength] at h
  | case2 ds =>
    cases h
    refine ⟨[], ds, rfl, rfl, fun us hus => ?_⟩
    have := hus.length_le
    simp only [List.length_append, List.length_cons, List.length_nil] at this
    exact List.eq_nil_of_length_eq_zero (by omega)
  | case3 c ds hdot ih =>
    rw [actionLength, Option.map_eq_some_iff] at h
    · obtain ⟨m, hm, rfl⟩ := h
      obtain ⟨body, rest, rfl, rfl, hfirst⟩ := ih hm
      refine ⟨c :: body, rest, rfl, rfl, fun us hus => ?_⟩
      cases us with
      | nil =>
        obtain ⟨rfl, more, hmore⟩ := List.cons_prefix_cons.mp hus
        refine (hdot (more ++ rest) rfl ?_).elim
        simpa using congrArg (· ++ rest) hmore.symm
      | cons u us =>
        obtain ⟨rfl, htail⟩ := List.cons_prefix_cons.mp hus
        rw [hfirst us htail]
    · exact hdot

theorem exists_resolverHead (h : resolverHeadLength cs = some n) :
    ∃ blanks rest, cs = 'I' :: 'F' :: (blanks ++ '(' :: rest) ∧ n = blanks.length + 3 ∧
      ∀ c ∈ blanks, isBlank c = true := by
  unfold resolverHeadLength at h
  split at h
  · rename_i ds
    dsimp only at h
    split at h
    · rename_i rest hd
      cases h
      have hds := eq_append_of_drop hd (List.takeWhile_prefix _)
      exact ⟨_, rest, by rw [← hds], rfl, fun c hc => List.mem_takeWhile_imp hc⟩
    · cases h
  · cases h

theorem directiveLength_le (ds : List Char) : directiveLength ds ≤ ds.length := by
  have hprefix := (ds.takeWhile_prefix isDirectiveChar)
  unfold directiveLength
  generalize ds.takeWhile isDirectiveChar = body at hprefix
  obtain ⟨rest, rfl⟩ := hprefix
  dsimp only
  split
  · exact Nat.zero_le _
  · rw [List.drop_left]
    split
    · rename_i es
      have := (es.takeWhile_prefix isDirectiveChar).length_le
      simp only [List.length_append, List.length_cons]
      omega
    · simp

end

/-! ### Scanning -/

variable {cs : List Char} {n : Nat} {k : Kind} {o : Option Kind}

theorem exists_scanWord (h : scanWord cs = .ok (o, n)) : ∃ text rest k, cs = text ++ rest ∧
    n = text.length ∧ o = some k ∧ Looks k text := by
  unfold scanWord at h
  split at h
  · cases h
  · rename_i c ds
    split at h
    · rename_i hc
      cases h
      have hprefix := ds.takeWhile_prefix alphabet.isWordChar
      have hword : ∀ d ∈ ds.takeWhile alphabet.isWordChar, alphabet.isWordChar d = true :=
        fun d hd => List.mem_takeWhile_imp hd
      generalize ds.takeWhile alphabet.isWordChar = body at hprefix hword
      obtain ⟨rest, rfl⟩ := hprefix
      refine ⟨c :: body, rest, _, rfl, rfl, ?_, .word hc hword⟩
      simp
    · split at h
      · rename_i k hp
        cases h
        exact ⟨[c], ds, k, rfl, rfl, rfl, .punctuation hp⟩
      · cases h

/-- What a text starts with: either something to pass over, and all of it, or a token. -/
inductive Scanned : Option Kind → List Char → Prop
  | layout {text : List Char} (h : Layout text) (hne : text ≠ []) : Scanned none text
  | token {k : Kind} {text : List Char} (h : Looks k text) : Scanned (some k) text

theorem Scanned.ne_nil {text : List Char} (h : Scanned o text) : text ≠ [] := by
  cases h with
  | layout _ hne => exact hne
  | token h => exact h.ne_nil

theorem exists_delimited (head : List Char) {ds : List Char} {m : Option Nat}
    (h : delimited k head.length m = .ok (o, n))
    (hbody : ∀ b, m = some b → ∃ body rest, ds = body ++ rest ∧ b = body.length ∧
      Looks k (head ++ body)) : ∃ text rest, head ++ ds = text ++ rest ∧ n = text.length ∧
        Scanned o text := by
  cases m with
  | none => cases h
  | some b =>
    cases h
    obtain ⟨body, rest, rfl, rfl, hl⟩ := hbody b rfl
    exact ⟨head ++ body, rest, by simp, by simp, .token hl⟩

theorem exists_scanLiteral {q : Char} {ds : List Char} (hq : q = '"' ∨ q = '\'')
    (hk : ∀ body, Looks k (q :: (body ++ [q]))) (h : scanLiteral k q ds = .ok (o, n)) :
    ∃ text rest, q :: ds = text ++ rest ∧ n = text.length ∧ Scanned o text := by
  unfold scanLiteral at h
  split at h
  · rename_i m hm
    cases h
    obtain ⟨body, e, rest, rfl, rfl, rfl⟩ := exists_literal hm
    exact ⟨q :: (body ++ [q]), rest, rfl, rfl, .token (hk body)⟩
  · rename_i m hm
    cases h
    obtain ⟨body, e, rest, rfl, rfl, he⟩ := exists_literal hm
    exact ⟨q :: (body ++ e), rest, rfl, rfl, .token (.unterminated hq body he)⟩
  · cases h

theorem Scanned.lineComment {text : List Char} (hc : LineComment text) : Scanned none text := by
  refine .layout (by simpa using Layout.line hc .nil) ?_
  obtain ⟨body, e, rfl, -⟩ := hc
  simp

theorem Scanned.blockComment {text : List Char} (hc : BlockComment text) : Scanned none text := by
  refine .layout (by simpa using Layout.block hc .nil) ?_
  obtain ⟨body, l, rfl, -⟩ := hc
  simp

/-- What is passed over leaves no token. -/
theorem eq_ok_of_map {r : Except Nat Nat}
    (h : r.map (fun n => ((none, n) : Lexeme)) = .ok (o, n)) : o = none ∧ r = .ok n := by
  cases r with
  | error => cases h
  | ok m =>
    cases h
    exact ⟨rfl, rfl⟩

theorem exists_directive {ds : List Char} (h : directiveLength ds ≠ 0) :
    ∃ text rest, '$' :: ds = text ++ rest ∧ directiveLength ds + 1 = text.length ∧
      Scanned (some .directive) text := by
  have hle := directiveLength_le ds
  refine ⟨'$' :: ds.take (directiveLength ds), ds.drop (directiveLength ds), by simp, ?_,
    .token (.directive fun hnil => h ?_)⟩
  · simp [Nat.min_eq_left hle]
  · have := congrArg List.length hnil
    simp only [List.length_take, List.length_nil] at this
    omega

theorem exists_resolver {m : Nat} (hm : resolverHeadLength cs = some m)
    (h : delimited .resolver m (balancedLength '(' ')' 1 (cs.drop m)) = .ok (o, n)) :
    ∃ text rest, cs = text ++ rest ∧ n = text.length ∧ Scanned o text := by
  obtain ⟨blanks, rest, rfl, rfl, hb⟩ := exists_resolverHead hm
  have hdrop : ('I' :: 'F' :: (blanks ++ '(' :: rest)).drop (blanks.length + 3) = rest := by
    rw [show 'I' :: 'F' :: (blanks ++ '(' :: rest) = 'I' :: 'F' :: (blanks ++ ['(']) ++ rest by
      simp]
    exact List.drop_left' (by simp)
  rw [hdrop] at h
  have hbody (b : Nat) (hm : balancedLength '(' ')' 1 rest = some b) :
      ∃ body es, rest = body ++ es ∧ b = body.length ∧
        Looks .resolver ('I' :: 'F' :: (blanks ++ ['(']) ++ body) := by
    obtain ⟨body, es, rfl, rfl, -⟩ := exists_balanced (by decide) Nat.one_ne_zero hm
    exact ⟨body ++ [')'], es, by simp, by simp, by simpa using Looks.resolver hb body⟩
  have hd := exists_delimited ('I' :: 'F' :: (blanks ++ ['('])) (by simpa using h) hbody
  simpa using hd

theorem exists_blanks (h : (cs.takeWhile isBlank).length ≠ 0) :
    ∃ text rest, cs = text ++ rest ∧ (cs.takeWhile isBlank).length = text.length ∧
      Scanned none text :=
  ⟨_, _, (List.takeWhile_append_dropWhile (p := isBlank)).symm, rfl,
    .layout (layout_of_blanks fun _ hc => List.mem_takeWhile_imp hc) (by simpa using h)⟩

/-- The scanner takes a token, a comment or blanks from the front of a text. -/
theorem scan_eq_ok (h : scan cs = .ok (o, n)) :
    ∃ text rest, cs = text ++ rest ∧ n = text.length ∧ Scanned o text := by
  unfold scan at h
  split at h
  · obtain ⟨rfl, hm⟩ := eq_ok_of_map h
    obtain ⟨text, rest, hcs, hn, hc⟩ := exists_lineComment hm
    exact ⟨text, rest, hcs, hn, .lineComment hc⟩
  · obtain ⟨rfl, hm⟩ := eq_ok_of_map h
    obtain ⟨text, rest, hcs, hn, hc⟩ := exists_blockComment hm
    exact ⟨text, rest, hcs, hn, .blockComment hc⟩
  · exact exists_scanLiteral (.inl rfl) .string h
  · exact exists_scanLiteral (.inr rfl) .char h
  · refine exists_delimited ['(', '.'] h fun b hb => ?_
    obtain ⟨body, rest, rfl, rfl, -⟩ := exists_action hb
    exact ⟨body ++ ['.', ')'], rest, by simp, by simp, .action body⟩
  · rename_i ds
    cases h
    exact ⟨['.', '.'], ds, rfl, rfl, .token .dotDot⟩
  · refine exists_delimited ['<'] h fun b hb => ?_
    obtain ⟨body, rest, rfl, rfl, -⟩ := exists_balanced (by decide) Nat.one_ne_zero hb
    exact ⟨body ++ ['>'], rest, by simp, by simp, .attributes body⟩
  · split at h
    · cases h
    · rename_i hne
      cases h
      exact exists_directive hne
  · split at h
    · rename_i m hm
      exact exists_resolver hm h
    · dsimp only at h
      split at h
      · rename_i hne
        cases h
        exact exists_blanks hne
      · obtain ⟨text, rest, k, hcs, hn, rfl, hl⟩ := exists_scanWord h
        exact ⟨text, rest, hcs, hn, .token hl⟩

/-! ### Reading -/

theorem byte_advance (p : Place) (cs : List Char) :
    (p.advance cs).byte = p.byte + Text.byteLength cs := by
  induction cs generalizing p with
  | nil => rfl
  | cons c cs ih =>
    have hstep : (p.step c).byte = p.byte + c.utf8Size := by
      unfold Place.step
      split
      · rfl
      · split <;> rfl
    rw [Place.advance, List.foldl_cons, ← Place.advance, ih, hstep, Text.byteLength_cons,
      Nat.add_assoc]

/-- The tokens cut a text that starts at byte `n` into their own texts and layout. -/
inductive Cut : (n : Nat) → List Char → List Token → Prop
  | layout {n : Nat} {text : List Char} (h : Layout text) : Cut n text []
  | token {n : Nat} {gap rest : List Char} {t : Token} {ts : List Token} (hgap : Layout gap)
      (hstart : t.start.byte = n + Text.byteLength gap)
      (hstop : t.stop.byte = t.start.byte + Text.byteLength t.chars) (hl : Looks t.kind t.chars)
      (h : Cut t.stop.byte rest ts) : Cut n (gap ++ t.chars ++ rest) (t :: ts)

theorem Cut.pass {n : Nat} {text rest : List Char} {ts : List Token} (ht : Layout text)
    (h : Cut (n + Text.byteLength text) rest ts) : Cut n (text ++ rest) ts := by
  cases h with
  | layout h => exact .layout (ht.append h)
  | token hgap hstart hstop hl h =>
    rw [← List.append_assoc, ← List.append_assoc]
    refine .token (ht.append hgap) ?_ hstop hl h
    rw [hstart, Text.byteLength_append, Nat.add_assoc]

theorem cut_readFrom {fuel : Nat} {p : Place} {cs : List Char} (hfuel : cs.length < fuel)
    (h : (readFrom fuel p cs).rejected = none) : Cut p.byte cs (readFrom fuel p cs).tokens := by
  induction fuel generalizing p cs with
  | zero => omega
  | succ fuel ih =>
    cases cs with
    | nil => exact .layout .nil
    | cons c cs =>
      rw [readFrom] at h ⊢
      · split at h
        · cases h
        · rename_i kind n hscan
          obtain ⟨text, rest, hcs, rfl, hs⟩ := scan_eq_ok hscan
          have hpos := List.length_pos_iff.mpr hs.ne_nil
          rw [hcs] at hfuel h ⊢
          simp only [List.take_left, List.drop_left, List.length_append] at hfuel h ⊢
          have hbyte := byte_advance p text
          cases hs with
          | layout ht =>
            exact .pass ht (hbyte ▸ ih (by omega) h)
          | token hl =>
            exact .token (t := ⟨_, text, p, p.advance text⟩) .nil rfl hbyte hl (ih (by omega) h)
      all_goals exact nofun

/-- The stretches before, between and behind the tokens of a text from one byte to another. -/
def gaps (start stop : Nat) : List Token → List (Nat × Nat)
  | [] => [(start, stop)]
  | t :: ts => (start, t.start.byte) :: gaps t.stop.byte stop ts

/-- The tokens follow each other in the text, and nothing but layout is between them. -/
structure Lossless (text : List Char) (tokens : List Token) : Prop where
  increasing : tokens.Pairwise fun t u => t.stop.byte ≤ u.start.byte
  nonempty : ∀ t ∈ tokens, t.start.byte < t.stop.byte
  chars : ∀ t ∈ tokens, Text.slice? text t.start.byte t.stop.byte = some t.chars
  looks : ∀ t ∈ tokens, Looks t.kind t.chars ∧ startsLayout t.chars = false
  between : ∀ g ∈ gaps 0 (Text.byteLength text) tokens,
    ∃ gap, Text.slice? text g.1 g.2 = some gap ∧ Layout gap

section

variable {n : Nat} {text : List Char} {ts : List Token}

theorem Cut.le_start (h : Cut n text ts) : ∀ t ∈ ts, n ≤ t.start.byte := by
  induction h with
  | layout => exact nofun
  | token hgap hstart hstop hl h ih =>
    refine List.forall_mem_cons.mpr ⟨by omega, fun u hu => ?_⟩
    have := ih u hu
    omega

theorem Cut.looks (h : Cut n text ts) : ∀ t ∈ ts, Looks t.kind t.chars := by
  induction h with
  | layout => exact nofun
  | token hgap hstart hstop hl h ih => exact List.forall_mem_cons.mpr ⟨hl, ih⟩

theorem Cut.stop_byte (h : Cut n text ts) :
    ∀ t ∈ ts, t.stop.byte = t.start.byte + Text.byteLength t.chars := by
  induction h with
  | layout => exact nofun
  | token hgap hstart hstop hl h ih => exact List.forall_mem_cons.mpr ⟨hstop, ih⟩

theorem Cut.increasing (h : Cut n text ts) :
    ts.Pairwise fun t u => t.stop.byte ≤ u.start.byte := by
  induction h with
  | layout => exact .nil
  | token hgap hstart hstop hl h ih => exact .cons h.le_start ih

theorem slice?_of_append (before piece behind : List Char) {a b : Nat}
    (ha : a = Text.byteLength before) (hb : b = a + Text.byteLength piece) :
    Text.slice? (before ++ piece ++ behind) a b = some piece := by
  rw [hb, ha]
  exact Text.slice?_append before piece behind

theorem Cut.chars (h : Cut n text ts) (before : List Char) (hb : Text.byteLength before = n) :
    ∀ t ∈ ts, Text.slice? (before ++ text) t.start.byte t.stop.byte = some t.chars := by
  induction h generalizing before with
  | layout => exact nofun
  | @token n gap rest t ts hgap hstart hstop hl h ih =>
    refine List.forall_mem_cons.mpr ⟨?_, ?_⟩
    · rw [← List.append_assoc, ← List.append_assoc]
      exact slice?_of_append _ _ _ (by rw [hstart, Text.byteLength_append, hb]) hstop
    · have := ih (before ++ gap ++ t.chars) (by
        rw [hstop, hstart, Text.byteLength_append, Text.byteLength_append, hb])
      simpa using this

theorem Cut.between (h : Cut n text ts) (before : List Char) (hb : Text.byteLength before = n) :
    ∀ g ∈ gaps n (n + Text.byteLength text) ts,
      ∃ gap, Text.slice? (before ++ text) g.1 g.2 = some gap ∧ Layout gap := by
  induction h generalizing before with
  | @layout n text ht =>
    intro g hg
    obtain rfl := List.mem_singleton.mp hg
    refine ⟨text, ?_, ht⟩
    have := slice?_of_append before text [] hb.symm rfl
    simpa using this
  | @token n gap rest t ts hgap hstart hstop hl h ih =>
    refine List.forall_mem_cons.mpr ⟨⟨gap, ?_, hgap⟩, ?_⟩
    · have := slice?_of_append before gap (t.chars ++ rest) hb.symm rfl
      simpa [hstart] using this
    · have hsum : n + Text.byteLength (gap ++ t.chars ++ rest) =
          t.stop.byte + Text.byteLength rest := by
        rw [hstop, hstart, Text.byteLength_append, Text.byteLength_append]
        omega
      have := ih (before ++ gap ++ t.chars) (by
        rw [hstop, hstart, Text.byteLength_append, Text.byteLength_append, hb])
      rw [hsum]
      simpa using this

theorem Cut.lossless (h : Cut 0 text ts) : Lossless text ts where
  increasing := h.increasing
  nonempty t ht := by
    have hpos := List.length_pos_iff.mpr (h.looks t ht).ne_nil
    have hle := Text.length_le_byteLength t.chars
    have hstop := h.stop_byte t ht
    omega
  chars t ht := by simpa using h.chars [] rfl t ht
  looks t ht := ⟨h.looks t ht, (h.looks t ht).not_startsLayout⟩
  between g hg := h.between [] rfl g (by simpa using hg)

end

/-- The tokens of a text that is read to its end and the blanks and comments between them are all of
the text. -/
theorem lossless_of_read {source : String} (h : (read source).rejected = none) :
    Lossless source.toList (read source).tokens :=
  (cut_readFrom (Nat.lt_succ_self _) h).lossless

theorem lossless_of_read_comments :
    (read "a/* /*b*/\"*/=//.\n\"/*\"..").rejected = none ∧
      Lossless "a/* /*b*/\"*/=//.\n\"/*\"..".toList (read "a/* /*b*/\"*/=//.\n\"/*\"..").tokens :=
  have h : (read "a/* /*b*/\"*/=//.\n\"/*\"..").rejected = none := by decide +kernel
  ⟨h, lossless_of_read h⟩

end Lookahead.Token
