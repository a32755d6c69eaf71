import Lookahead.Proofs.Counters
import Lookahead.Proofs.Names

/-!
# Where brackets close

Attributes, resolvers and actions end with the first bracket that closes them, and comments with the
first mark that does. Behind each of them all counters are zero, so that the reader goes on as at
the start of a text (`Token.Reader.Reached.fresh`): what lies behind does not depend on what has
been read (`Token.closing_of_read`).
-/

namespace Lookahead

namespace Place

/-- A place in a text that starts at `p` itself. -/
def behind (p q : Place) : Place :=
  ⟨p.line + q.line, if q.line = 0 then p.col + q.col else q.col, p.byte + q.byte⟩

variable {p q : Place}

@[simp] theorem behind_start : p.behind {} = p := rfl

@[simp] theorem start_behind (q : Place) : behind {} q = q := by
  simp [behind]

theorem step_behind (c : Char) : (p.behind q).step c = p.behind (q.step c) := by
  unfold step
  split
  · simp [behind, Nat.add_assoc]
  · split
    · by_cases hq : q.line = 0 <;> simp [behind, hq, Nat.add_assoc]
    · by_cases hq : q.line = 0 <;> simp [behind, hq, Nat.add_assoc]

theorem advance_behind (cs : List Char) : (p.behind q).advance cs = p.behind (q.advance cs) := by
  induction cs generalizing q with
  | nil => rfl
  | cons c cs ih =>
    rw [advance, List.foldl_cons, step_behind]
    exact ih

theorem advance_start (cs : List Char) : p.advance cs = p.behind (advance {} cs) := by
  rw [← advance_behind, behind_start]

theorem behind_behind (r : Place) : (p.behind q).behind r = p.behind (q.behind r) := by
  unfold behind
  by_cases hq : q.line = 0 <;> by_cases hr : r.line = 0 <;> simp [hq, hr, Nat.add_assoc]

end Place

namespace Token

variable {p q : Place} {cs ds text rest : List Char} {n : Nat} {k : Kind} {o : Option Kind}

/-- The token where it is if its text starts at `p`. -/
def behind (p : Place) (t : Token) : Token :=
  { t with start := p.behind t.start, stop := p.behind t.stop }

namespace Stream

def behind (p : Place) (s : Stream) : Stream := ⟨s.tokens.map (·.behind p), s.rejected.map p.behind⟩

/-- The stream with further tokens in front of it. -/
def after (ts : List Token) (s : Stream) : Stream := { s with tokens := ts ++ s.tokens }

variable {s : Stream} {ts us : List Token}

theorem start_behind (s : Stream) : s.behind {} = s := by
  have htoken : Token.behind {} = id := funext fun t => by simp [Token.behind]
  have hplace : Place.behind {} = id := funext Place.start_behind
  simp [behind, htoken, hplace]

theorem behind_behind : (s.behind q).behind p = s.behind (p.behind q) := by
  simp [behind, Token.behind, ← Place.behind_behind, Function.comp_def]

theorem behind_after : (s.after ts).behind p = (s.behind p).after (ts.map (Token.behind p)) := by
  simp [behind, after]

theorem after_after : (s.after us).after ts = s.after (ts ++ us) := by
  simp [after]

end Stream

/-! ### Closing brackets -/

/-- The text ends with the first closing bracket that makes as many of them as there are opening
ones. -/
def ClosesAtEnd (opening closing : Char) (text : List Char) : Prop :=
  ∃ body, text = body ++ [closing] ∧ text.count closing = text.count opening ∧
    ∀ us, us ++ [closing] <+: text →
      (us ++ [closing]).count closing = (us ++ [closing]).count opening → us = body

/-- The text ends with the first mark that makes as many closing as opening ones. -/
def CommentClosesAtEnd (text : List Char) : Prop :=
  ∃ body, text = body ++ ['*', '/'] ∧ marks text = marks body ++ [false] ∧
    (marks text).count false = (marks text).count true ∧
    ∀ l, l ≠ [] → l <+: marks body → l.count false < l.count true

/-- What comes in front opens the first bracket. -/
theorem closesAtEnd_of_balanced {opening closing : Char} (hne : opening ≠ closing)
    {head body : List Char} (hopen : head.count opening = 1) (hclose : closing ∉ head)
    (hcount : body.count closing + 1 = body.count opening + 1)
    (hfirst : ∀ us, us ++ [closing] <+: body → us.count closing + 1 < us.count opening + 1) :
    ClosesAtEnd opening closing (head ++ body ++ [closing]) := by
  have hzero := List.count_eq_zero_of_not_mem hclose
  have hlast : [closing].count opening = 0 := by simp [hne.symm]
  refine ⟨head ++ body, rfl, ?_, fun us hus heq => ?_⟩
  · simp only [List.count_append, hzero, hopen, hlast, List.count_singleton_self]
    omega
  rw [List.append_assoc] at hus
  rcases List.prefix_or_prefix_of_prefix hus (List.prefix_append head (body ++ [closing])) with
    hin | ⟨vs, hvs⟩
  · exact absurd (hin.subset (by simp)) hclose
  rcases List.eq_nil_or_concat vs with rfl | ⟨ws, v, rfl⟩
  · rw [List.append_nil] at hvs
    exact absurd (hvs ▸ List.mem_append_right us (List.mem_singleton_self closing)) hclose
  · rw [List.concat_eq_append, ← List.append_assoc] at hvs
    obtain ⟨rfl, hv⟩ := List.append_inj' hvs rfl
    obtain rfl := List.singleton_inj.mp hv
    rw [List.append_assoc, List.prefix_append_right_inj, List.prefix_concat_iff] at hus
    rcases hus with hus | hus
    · rw [List.append_cancel_right hus]
    · have := hfirst ws hus
      simp only [List.count_append, hzero, hopen, hlast, List.count_singleton_self] at heq
      omega

/-! ### What is scanned -/

theorem scanWord_plain (h : scanWord cs = .ok (some k, n)) :
    k ≠ .attributes ∧ k ≠ .resolver ∧ k ≠ .action := by
  unfold scanWord at h
  split at h
  · cases h
  · split at h
    · cases h
      unfold wordKind
      split <;> exact ⟨nofun, nofun, nofun⟩
    · split at h
      · rename_i hp
        cases h
        unfold punctuation? at hp
        split at hp <;> cases hp <;> exact ⟨nofun, nofun, nofun⟩
      · cases h

/-- The tokens with brackets are those that start with them. -/
theorem scan_bracketed (h : scan cs = .ok (some k, n)) :
    (k = .attributes → ∃ ds m, cs = '<' :: ds ∧ balancedLength '<' '>' 1 ds = some m ∧
      n = 1 + m) ∧
    (k = .resolver → ∃ head m, resolverHeadLength cs = some head ∧
      balancedLength '(' ')' 1 (cs.drop head) = some m ∧ n = head + m) ∧
    (k = .action → ∃ ds m, cs = '(' :: '.' :: ds ∧ actionLength ds = some m ∧ n = 2 + m) := by
  have hdelimited {kind : Kind} {head : Nat} {o : Option Nat}
      (h : delimited kind head o = .ok (some k, n)) :
      kind = k ∧ ∃ m, o = some m ∧ n = head + m := by
    cases o <;> cases h
    exact ⟨rfl, _, rfl, rfl⟩
  unfold scan at h
  split at h
  iterate 2 exact absurd h (map_passed_ne_ok _)
  iterate 2
    unfold scanLiteral at h
    split at h <;> cases h <;> exact ⟨nofun, nofun, nofun⟩
  · obtain ⟨rfl, m, hm, rfl⟩ := hdelimited h
    exact ⟨nofun, nofun, fun _ => ⟨_, m, rfl, hm, rfl⟩⟩
  · cases h
    exact ⟨nofun, nofun, nofun⟩
  · obtain ⟨rfl, m, hm, rfl⟩ := hdelimited h
    exact ⟨fun _ => ⟨_, m, rfl, hm, rfl⟩, nofun, nofun⟩
  · split at h <;> cases h
    exact ⟨nofun, nofun, nofun⟩
  · split at h
    · rename_i head hhead
      obtain ⟨rfl, m, hm, rfl⟩ := hdelimited h
      exact ⟨nofun, fun _ => ⟨head, m, hhead, hm, rfl⟩, nofun⟩
    · dsimp only at h
      split at h
      · cases h
      · obtain ⟨ha, hr, hs⟩ := scanWord_plain h
        exact ⟨fun hk => absurd hk ha, fun hk => absurd hk hr, fun hk => absurd hk hs⟩

theorem closesAtEnd_of_attributes (h : scan cs = .ok (some .attributes, n)) :
    (∃ body, cs.take n = '<' :: body) ∧ ClosesAtEnd '<' '>' (cs.take n) := by
  obtain ⟨ds, m, rfl, hm, rfl⟩ := (scan_bracketed h).1 rfl
  obtain ⟨body, rest, rfl, rfl, hcount, hfirst⟩ :=
    exists_balanced (by decide) Nat.one_ne_zero hm
  have htake : ('<' :: (body ++ '>' :: rest)).take (1 + (body.length + 1)) =
      ['<'] ++ body ++ ['>'] := by
    rw [show '<' :: (body ++ '>' :: rest) = ['<'] ++ body ++ ['>'] ++ rest by simp]
    exact List.take_left' (by simp; omega)
  rw [htake]
  exact ⟨⟨body ++ ['>'], rfl⟩,
    closesAtEnd_of_balanced (by decide) (by decide) (by decide) hcount hfirst⟩

theorem closesAtEnd_of_resolver (h : scan cs = .ok (some .resolver, n)) :
    (∃ blanks body, (∀ c ∈ blanks, isBlank c = true) ∧
      cs.take n = 'I' :: 'F' :: (blanks ++ '(' :: body)) ∧ ClosesAtEnd '(' ')' (cs.take n) := by
  obtain ⟨head, m, hhead, hm, rfl⟩ := (scan_bracketed h).2.1 rfl
  obtain ⟨blanks, behind, rfl, rfl, hblanks⟩ := exists_resolverHead hhead
  have hcut : 'I' :: 'F' :: (blanks ++ '(' :: behind) =
      'I' :: 'F' :: (blanks ++ ['(']) ++ behind := by simp
  rw [hcut, List.drop_left' (by simp)] at hm
  obtain ⟨body, rest, rfl, rfl, hcount, hfirst⟩ :=
    exists_balanced (by decide) Nat.one_ne_zero hm
  have htake : ('I' :: 'F' :: (blanks ++ '(' :: (body ++ ')' :: rest))).take
      (blanks.length + 3 + (body.length + 1)) =
        'I' :: 'F' :: (blanks ++ ['(']) ++ body ++ [')'] := by
    rw [show 'I' :: 'F' :: (blanks ++ '(' :: (body ++ ')' :: rest)) =
      'I' :: 'F' :: (blanks ++ ['(']) ++ body ++ [')'] ++ rest by simp]
    exact List.take_left' (by simp; omega)
  have hfree (c : Char) (hc : isBlank c = false) : c ∉ blanks := fun hmem => by
    rw [hblanks c hmem] at hc
    cases hc
  rw [htake]
  refine ⟨⟨blanks, body ++ [')'], hblanks, by simp⟩,
    closesAtEnd_of_balanced (by decide) ?_ ?_ hcount hfirst⟩
  · simp [List.count_eq_zero_of_not_mem (hfree '(' (by decide))]
  · simp [hfree ')' (by decide)]

theorem closesAtEnd_of_action (h : scan cs = .ok (some .action, n)) :
    ∃ body, cs.take n = '(' :: '.' :: (body ++ ['.', ')']) ∧
      ∀ us, us ++ ['.', ')'] <+: body ++ ['.', ')'] → us = body := by
  obtain ⟨ds, m, rfl, hm, rfl⟩ := (scan_bracketed h).2.2 rfl
  obtain ⟨body, rest, rfl, rfl, hfirst⟩ := exists_action hm
  refine ⟨body, ?_, hfirst⟩
  rw [show '(' :: '.' :: (body ++ '.' :: ')' :: rest) =
    '(' :: '.' :: (body ++ ['.', ')']) ++ rest by simp]
  exact List.take_left' (by simp; omega)

theorem closesAtEnd_of_comment {kind : Option Kind} (h : scan ('/' :: '*' :: ds) = .ok (kind, n)) :
    CommentClosesAtEnd (('/' :: '*' :: ds).take n) := by
  rw [scan] at h
  cases hm : blockCommentLength 1 2 0 ds with
  | error e => simp [hm, Except.map] at h
  | ok m =>
    simp only [hm, Except.map, Except.ok.injEq, Prod.mk.injEq] at h
    obtain ⟨-, rfl⟩ := h
    obtain ⟨body, rest, rfl, rfl, hmarks, hc⟩ := exists_closes Nat.one_ne_zero hm
    have htake : ('/' :: '*' :: (body ++ '*' :: '/' :: rest)).take (2 + body.length + 2) =
        '/' :: '*' :: body ++ ['*', '/'] := by
      rw [show '/' :: '*' :: (body ++ '*' :: '/' :: rest) =
        '/' :: '*' :: body ++ ['*', '/'] ++ rest by simp]
      exact List.take_left' (by simp; omega)
    rw [htake]
    refine ⟨_, rfl, by simp [marks, hmarks], ?_, fun l hne hl => ?_⟩
    · simp [marks, hmarks, hc.count]
    · cases l with
      | nil => exact absurd rfl hne
      | cons b l =>
        obtain ⟨rfl, htail⟩ := List.cons_prefix_cons.mp hl
        simpa using hc.first l htail

/-! ### Going on -/

theorem readFrom_behind (fuel : Nat) :
    readFrom fuel (p.behind q) cs = (readFrom fuel q cs).behind p := by
  induction fuel generalizing q cs with
  | zero => rfl
  | succ fuel ih =>
    cases cs with
    | nil => rfl
    | cons c cs =>
      rw [readFrom, readFrom]
      · split
        · simp [Stream.behind, Place.advance_behind]
        · rename_i kind n hscan
          dsimp only
          rw [Place.advance_behind, ih]
          cases kind <;> rfl
      all_goals simp

/-- More fuel than there are characters makes no difference. -/
theorem readFrom_fuel {fuel fuel' : Nat} (h : cs.length < fuel) (h' : cs.length < fuel') :
    readFrom fuel p cs = readFrom fuel' p cs := by
  induction fuel generalizing fuel' p cs with
  | zero => omega
  | succ fuel ih =>
    obtain ⟨fuel', rfl⟩ := Nat.exists_eq_add_one_of_ne_zero (Nat.ne_zero_of_lt h')
    cases cs with
    | nil => rfl
    | cons c cs =>
      rw [readFrom, readFrom]
      · cases hscan : scan (c :: cs) with
        | error n => rfl
        | ok r =>
          obtain ⟨kind, n⟩ := r
          obtain ⟨text, rest, hcs, rfl, hs⟩ := scan_eq_ok hscan
          have hpos := List.length_pos_iff.mpr hs.ne_nil
          rw [hcs] at h h' ⊢
          simp only [List.length_append] at h h'
          simp only [List.drop_left]
          rw [ih (by omega) (show rest.length < fuel' by omega)]
      all_goals simp

/-- The token that is made of a text at a place, if it is one. -/
def made (o : Option Kind) (text : List Char) (p : Place) : List Token :=
  (o.map fun k => ⟨k, text, p, p.advance text⟩).toList

theorem made_behind : (made o text {}).map (Token.behind p) = made o text p := by
  cases o with
  | none => rfl
  | some k => simp [made, Token.behind, ← Place.advance_start]

/-- A text is read like what comes first and then the rest, each on its own. -/
theorem read_append (h : scan (text ++ rest) = .ok (o, text.length)) :
    read (String.ofList (text ++ rest)) =
      ((read (String.ofList rest)).behind (Place.advance {} text)).after (made o text {}) := by
  obtain ⟨text', rest', hcs, hn, hs⟩ := scan_eq_ok h
  obtain ⟨rfl, rfl⟩ := List.append_inj hcs hn
  have hpos := List.length_pos_iff.mpr hs.ne_nil
  unfold read
  simp only [String.toList_ofList]
  rw [← readFrom_behind, Place.behind_start]
  cases hc : text ++ rest with
  | nil => simp_all
  | cons c cs =>
    rw [hc] at h
    rw [readFrom, h]
    · simp only [← hc, List.take_left, List.drop_left]
      rw [readFrom_fuel (by simp; omega) (Nat.lt_succ_self rest.length)]
      cases o <;> rfl
    all_goals simp

/-- The reader with counters between two steps: what it has read, the tokens in that, and what is
left. -/
structure Reader where
  counters : Counters := {}
  before : List Char := []
  tokens : List Token := []
  rest : List Char

namespace Reader

variable {bounds : Bounds} {source : List Char} {r r' : Reader}

/-- Where the reader is. -/
def place (r : Reader) : Place := Place.advance {} r.before

/-- The reader takes a token, or something to pass over, from the front of what is left. -/
inductive Takes (bounds : Bounds) : Reader → Option Kind → List Char → Reader → Prop
  | intro {r : Reader} {o : Option Kind} {text rest : List Char} {l : Counters}
      (hrest : r.rest = text ++ rest)
      (h : scan? bounds r.counters r.rest = some (.ok (o, text.length), l)) :
      Takes bounds r o text ⟨l, r.before ++ text, r.tokens ++ made o text r.place, rest⟩

/-- The reader gets there from the start of the text. -/
inductive Reached (bounds : Bounds) (source : List Char) : Reader → Prop
  | start : Reached bounds source { rest := source }
  | step {r r' : Reader} {o : Option Kind} {text : List Char} (h : Reached bounds source r)
      (ht : r.Takes bounds o text r') : Reached bounds source r'

/-- The reader is in the state of one that starts with what is left. -/
structure Fresh (source : List Char) (r : Reader) : Prop where
  counters : r.counters = {}
  whole : source = r.before ++ r.rest
  read : read (String.ofList source) =
    ((Token.read (String.ofList r.rest)).behind r.place).after r.tokens

theorem Takes.scan (h : r.Takes bounds o text r') (hr : r.counters = {}) :
    Token.scan r.rest = .ok (o, text.length) ∧ r'.counters = {} := by
  obtain ⟨hrest, h⟩ := h
  obtain ⟨l, hl, hzero⟩ := scan?_eq bounds r.rest
  rw [hr, hl, Option.some.injEq, Prod.mk.injEq] at h
  obtain ⟨hscan, rfl⟩ := h
  exact ⟨hscan, hzero (by rw [hscan]; rfl)⟩

/-- One step. -/
theorem Fresh.takes (h : r.Fresh source) (ht : r.Takes bounds o text r') : r'.Fresh source := by
  obtain ⟨hscan, hcounters⟩ := ht.scan h.counters
  obtain ⟨hrest, -⟩ := ht
  refine ⟨hcounters, by rw [h.whole, hrest, List.append_assoc], ?_⟩
  rw [hrest] at hscan
  rw [h.read, hrest, read_append hscan, Stream.behind_after, Stream.behind_behind, made_behind,
    ← Place.advance_start, Stream.after_after]
  simp only [place, Place.advance_append]

/-- Behind whatever has been read the reader goes on as a fresh one does. -/
theorem Reached.fresh (h : r.Reached bounds source) : r.Fresh source := by
  induction h with
  | start =>
    refine ⟨rfl, rfl, ?_⟩
    rw [place, Place.advance, List.foldl_nil, Stream.start_behind]
    rfl
  | step _ ht ih => exact ih.takes ht

/-- What the scanner finds is taken. -/
theorem Reached.exists_takes_of_scan (h : r.Reached bounds source)
    (hscan : Token.scan r.rest = .ok (o, n)) : ∃ (text : List Char) (r' : Reader),
      r.rest = text ++ r'.rest ∧ n = text.length ∧ r.Takes bounds o text r' ∧
        r'.place = r.place.advance text ∧ r'.tokens = r.tokens ++ made o text r.place := by
  obtain ⟨text, rest, hcs, rfl, -⟩ := scan_eq_ok hscan
  obtain ⟨l, hl, -⟩ := scan?_eq bounds r.rest
  rw [hscan] at hl
  exact ⟨text, _, hcs, rfl, .intro hcs (by rw [h.fresh.counters, hl]), Place.advance_append .., rfl⟩

/-- Every token that there is to be read from here is taken in a step. -/
theorem Reached.exists_takes {fuel : Nat} {ts us : List Token} {t : Token}
    (h : r.Reached bounds source)
    (hread : (readFrom fuel r.place r.rest).tokens = ts ++ t :: us) : ∃ r' r'' : Reader,
      r'.Reached bounds source ∧ r'.Takes bounds (some t.kind) t.chars r'' ∧
        r''.tokens = r.tokens ++ (ts ++ [t]) := by
  induction fuel generalizing r ts with
  | zero => simp [readFrom] at hread
  | succ fuel ih =>
    by_cases hnil : r.rest = []
    · simp [hnil, readFrom] at hread
    rw [readFrom] at hread
    swap
    · exact hnil
    cases hscan : Token.scan r.rest with
    | error n => simp [hscan] at hread
    | ok lexeme =>
      obtain ⟨o, n⟩ := lexeme
      obtain ⟨text, v, hrest, rfl, ht, hplace, htokens⟩ := h.exists_takes_of_scan hscan
      rw [hscan] at hread
      dsimp only at hread
      rw [hrest, List.take_left, List.drop_left, ← hplace] at hread
      cases o with
      | none =>
        obtain ⟨r', r'', hr', ht', htokens'⟩ := ih (h.step ht) hread
        exact ⟨r', r'', hr', ht', by rw [htokens', htokens]; simp [made]⟩
      | some k =>
        cases ts with
        | nil =>
          obtain ⟨rfl, -⟩ := List.cons.inj hread
          exact ⟨r, v, h, ht, by rw [htokens]; simp [made, hplace]⟩
        | cons t' ts =>
          obtain ⟨rfl, htail⟩ := List.cons.inj hread
          obtain ⟨r', r'', hr', ht', htokens'⟩ := ih (h.step ht) htail
          exact ⟨r', r'', hr', ht', by rw [htokens', htokens]; simp [made, hplace]⟩

end Reader

/-- Tokens with brackets and comments end where these close, and behind each step the reader goes on
as one that starts with the rest of the text. -/
structure Closing (bounds : Bounds) (source : String) : Prop where
  attributes : ∀ t ∈ (read source).tokens, t.kind = .attributes →
    (∃ body, t.chars = '<' :: body) ∧ ClosesAtEnd '<' '>' t.chars
  resolver : ∀ t ∈ (read source).tokens, t.kind = .resolver →
    (∃ blanks body, (∀ c ∈ blanks, isBlank c = true) ∧
      t.chars = 'I' :: 'F' :: (blanks ++ '(' :: body)) ∧ ClosesAtEnd '(' ')' t.chars
  action : ∀ t ∈ (read source).tokens, t.kind = .action →
    ∃ body, t.chars = '(' :: '.' :: (body ++ ['.', ')']) ∧
      ∀ us, us ++ ['.', ')'] <+: body ++ ['.', ')'] → us = body
  comment : ∀ (r r' : Reader) (text : List Char), r.Reached bounds source.toList →
    r.Takes bounds none ('/' :: '*' :: text) r' → CommentClosesAtEnd ('/' :: '*' :: text)
  /-- Behind each token there is a reader. -/
  taken : ∀ ts t us, (read source).tokens = ts ++ t :: us → ∃ r r' : Reader,
    r.Reached bounds source.toList ∧ r.Takes bounds (some t.kind) t.chars r' ∧
      r'.tokens = ts ++ [t]
  /-- Its counters are zero, and what it is about to read is what it would read in a text of its
  own, but for the places. -/
  fresh : ∀ r : Reader, r.Reached bounds source.toList → r.counters = {} ∧
    source.toList = r.before ++ r.rest ∧
      read source = ((read (String.ofList r.rest)).behind r.place).after r.tokens

theorem closing_of_read (bounds : Bounds) (source : String) : Closing bounds source where
  attributes t ht hk := by
    obtain ⟨cs, n, hscan, hchars⟩ := exists_scan_of_readFrom ht
    rw [hchars]
    exact closesAtEnd_of_attributes (hk ▸ hscan)
  resolver t ht hk := by
    obtain ⟨cs, n, hscan, hchars⟩ := exists_scan_of_readFrom ht
    rw [hchars]
    exact closesAtEnd_of_resolver (hk ▸ hscan)
  action t ht hk := by
    obtain ⟨cs, n, hscan, hchars⟩ := exists_scan_of_readFrom ht
    rw [hchars]
    exact closesAtEnd_of_action (hk ▸ hscan)
  comment r r' text hr ht := by
    obtain ⟨hscan, -⟩ := ht.scan hr.fresh.counters
    obtain ⟨hrest, -⟩ := ht
    rw [hrest, List.cons_append, List.cons_append] at hscan
    have h := closesAtEnd_of_comment hscan
    rwa [← List.cons_append, ← List.cons_append, List.take_left] at h
  taken _ _ _ h := Reader.Reached.exists_takes (r := { rest := source.toList }) .start h
  fresh r hr := by
    obtain ⟨hcounters, hwhole, hread⟩ := hr.fresh
    exact ⟨hcounters, hwhole, by rwa [String.ofList_toList] at hread⟩

/-- Marks of comments that overlap, brackets in brackets, and all of it once more. -/
example : (read "</**/<>>/*/*/ /**/*/*/(.).)IF((.))<>").tokens.map (·.text) =
    ["</**/<>>", "(.).)", "IF((.))", "<>"] := by
  decide +kernel

end Token

end Lookahead
