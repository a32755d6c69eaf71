import Lookahead.Proofs.HaltingDeclarations
import Lookahead.Proofs.Lexemes
import Lookahead.Proofs.Parallel

/-!
# Tokens as texts have them

Whatever a token of a text looks like, its delimiters are there (`Token.regular_of_read`). So
everything that declaring what is read from a text takes for granted of its tokens holds
(`Definition.sound_of_read`, `Broken.sound_of_read`).
-/

namespace Lookahead

namespace Token

open Text

/-- The delimiters that go with the kind of the token are there, and an identifier does not stand
for a name that is made up. -/
structure Regular (t : Token) : Prop where
  literal : t.kind = .string ∨ t.kind = .char → t.Quoted
  attributes : t.kind = .attributes → 1 ≤ t.stop.byte
  action : t.kind = .action → 2 ≤ t.stop.byte
  resolver : t.kind = .resolver → 1 ≤ t.stop.byte
  ident : t.kind = .ident → t.text ≠ "#"

theorem looks_of_readFrom {fuel : Nat} {p : Place} {cs : List Char} {t : Token}
    (ht : t ∈ (readFrom fuel p cs).tokens) :
    Looks t.kind t.chars ∧ t.stop.byte = t.start.byte + byteLength t.chars := by
  induction fuel generalizing p cs with
  | zero => simp [readFrom] at ht
  | succ fuel ih =>
    cases cs with
    | nil => simp [readFrom] at ht
    | cons c cs =>
      simp only [readFrom] at ht
      split at ht
      · simp at ht
      · rename_i kind n hscan
        obtain ⟨text, rest, hcs, rfl, hs⟩ := scan_eq_ok hscan
        cases kind with
        | none => exact ih ht
        | some k =>
          rcases List.mem_cons.mp ht with rfl | ht
          · cases hs with
            | token hl =>
              rw [hcs]
              simp only [List.take_left]
              exact ⟨hl, byte_advance p text⟩
          · exact ih ht

theorem quoted_of_looks {t : Token} (h : Looks t.kind t.chars)
    (hk : t.kind = .string ∨ t.kind = .char) : t.Quoted := by
  obtain ⟨k, cs, start, stop⟩ := t
  cases h with
  | string body => exact ⟨'"', body, '"', rfl, by decide, by decide⟩
  | char body => exact ⟨'\'', body, '\'', rfl, by decide, by decide⟩
  | word hc hcs =>
    simp only at hk
    split at hk <;> simp at hk
  | punctuation hp =>
    unfold punctuation? at hp
    split at hp <;> cases hp <;> simp at hk
  | _ => simp at hk

theorem two_le_of_looks {t : Token} (h : Looks t.kind t.chars) (hk : t.kind = .action) :
    2 ≤ t.chars.length := by
  obtain ⟨k, cs, start, stop⟩ := t
  cases h with
  | action body => simp
  | word hc hcs =>
    simp only at hk
    split at hk <;> simp at hk
  | punctuation hp =>
    unfold punctuation? at hp
    split at hp <;> cases hp <;> simp at hk
  | _ => simp at hk

/-- Identifiers start with a letter or an underscore. -/
theorem text_ne_of_looks {t : Token} (h : Looks t.kind t.chars) (hk : t.kind = .ident) :
    t.text ≠ "#" := by
  obtain ⟨k, cs, start, stop⟩ := t
  have hne (c : Char) (cs : List Char) (hc : alphabet.startsIdentifier c = true) :
      String.ofList (c :: cs) ≠ "#" := fun he => by
    have hl := congrArg String.toList he
    rw [String.toList_ofList] at hl
    obtain rfl : c = '#' := (List.cons.inj hl).1
    exact absurd hc (by decide)
  cases h with
  | word hc hcs => exact hne _ _ hc
  | punctuation hp =>
    unfold punctuation? at hp
    split at hp <;> cases hp <;> simp at hk
  | _ => simp at hk

theorem regular_of_read {source : String} {t : Token} (ht : t ∈ (read source).tokens) :
    t.Regular := by
  obtain ⟨h, hstop⟩ := looks_of_readFrom ht
  have hle := length_le_byteLength t.chars
  have hlength (n : Nat) (hn : n ≤ t.chars.length) : n ≤ t.stop.byte := by omega
  exact ⟨quoted_of_looks h, fun _ => hlength 1 (List.length_pos_iff.mpr h.ne_nil),
    fun hk => hlength 2 (two_le_of_looks h hk),
    fun _ => hlength 1 (List.length_pos_iff.mpr h.ne_nil), text_ne_of_looks h⟩

end Token

/-! ### Trees of regular tokens -/

open Token

/-- The diagonal of regular tokens. -/
abbrev Token.Plain := Known Regular

theorem SimpleSet.Related.sound {s s' : SimpleSet} (h : s.Related Token.Plain s') : s.Sound := by
  cases h with
  | name => trivial
  | string h hk => exact h.2.literal (.inl hk)
  | char h hk => exact h.2.literal (.inr hk)
  | range hl hh hlk hhk => exact ⟨hl.2.literal (.inr hlk), hh.2.literal (.inr hhk)⟩
  | any => trivial

theorem Expr.Related.all {α : Type} {A : α → α → Prop} {P : α → Prop} (hA : ∀ a b, A a b → P a)
    {e e' : Expr α} (h : e.Related A e') : e.All P := by
  induction h with
  | empty => trivial
  | atom h => exact hA _ _ h
  | seq _ _ ihe ihf | alt _ _ ihe ihf => exact ⟨ihe, ihf⟩
  | group _ _ ih => exact ih

/-- What relates things in a list to themselves, one by one. -/
theorem forall_mem_of_related {α : Type} {A : α → α → Prop} {P : α → Prop}
    (hA : ∀ a b, A a b → P a) {l m : List α} (h : List.Forall₂ A l m) : ∀ a ∈ l, P a := by
  induction h with
  | nil => exact nofun
  | cons h _ ih => exact List.forall_mem_cons.mpr ⟨hA _ _ h, ih⟩

theorem Token.Optional.forall_mem {k : Token.Kind} {P : Token → Prop}
    (hP : ∀ t : Token, t.Regular → t.kind = k → P t) {a a' : Option Token}
    (h : Token.Optional Token.Plain k a a') : ∀ t ∈ a, P t := by
  cases h with
  | some h =>
    intro t ht
    cases ht
    exact hP _ h.1.2 h.2
  | none => exact nofun

theorem SetDecl.Related.sound {d d' : SetDecl} (h : d.Related Token.Plain d') : d.Sound where
  name := h.name.2.ident h.kind
  terms := forall_mem_of_related (fun _ _ h => h.set.sound) h.terms

theorem TokenAtom.Related.sound {a a' : TokenAtom} (h : a.Related Token.Plain a') : a.Sound := by
  cases h with
  | className h hk => exact h.2.ident hk
  | literal h hk => exact fun hchar => h.2.literal (.inr hchar)

theorem TokenDecl.Related.sound {d d' : TokenDecl} (h : d.Related Token.Plain d') : d.Sound where
  body e he := by
    have hbody := h.body
    rw [Option.mem_def.mp he] at hbody
    generalize d'.body = b at hbody
    cases hbody with
    | some hb => exact hb.all fun (a b : TokenAtom) (h : a.Related Plain b) => h.sound
  action := h.action.forall_mem fun _ => Regular.action

theorem Atom.Related.sound {a a' : Atom} (h : a.Related Token.Plain a') : a.Sound := by
  cases h with
  | symbol h hk ha =>
    exact ⟨fun hchar => h.2.literal (.inr hchar), ha.forall_mem fun _ => Regular.attributes⟩
  | action h hk => exact h.2.action hk
  | resolver h hk => exact h.2.resolver hk
  | _ => trivial

theorem Production.Related.sound {p p' : Production} (h : p.Related Token.Plain p') :
    p.Sound where
  attributes := h.attributes.forall_mem fun _ => Regular.attributes
  locals := h.locals.forall_mem fun _ => Regular.action
  body := h.body.all fun (a b : Atom) (h : a.Related Plain b) => h.sound

theorem Sections.Related.sound {s s' : Sections} (h : s.Related Token.Plain s') : s.Sound where
  sets := forall_mem_of_related (fun (a b : SetDecl) (h : a.Related Plain b) => h.sound) h.sets
  tokens :=
    forall_mem_of_related (fun (a b : TokenDecl) (h : a.Related Plain b) => h.sound) h.tokens
  pragmas :=
    forall_mem_of_related (fun (a b : TokenDecl) (h : a.Related Plain b) => h.sound) h.pragmas
  productions :=
    forall_mem_of_related (fun (a b : Production) (h : a.Related Plain b) => h.sound) h.productions

theorem Fragment.Related.sound {f f' : Fragment} (h : f.Related Token.Plain f') : f.Sound := by
  cases h with
  | setStart h hk hl => exact forall_mem_of_related (fun _ _ h => h.set.sound) hl
  | set h => exact h.sound
  | token h hk he | pragma h hk he =>
    exact he.all fun (a b : TokenAtom) (h : a.Related Plain b) => h.sound
  | production h => exact h.sound
  | _ => trivial

/-! ### Texts -/

variable {source : String}

theorem Definition.sound_of_read {d : Definition} (hd : Definition.read source = .ok d) :
    d.sections.Sound :=
  (Definition.related_of_read (Token.alike_known Regular)
    (fun _ ht => ⟨rfl, regular_of_read ht⟩) hd).sections.sound

theorem Broken.sound_of_read {b : Broken} (hb : Definition.read source = .error b) :
    b.sections.Sound ∧ b.last.Sound := by
  obtain ⟨hs, hl⟩ := Definition.parts_of_read (Token.alike_known Regular)
    (fun _ ht => ⟨rfl, regular_of_read ht⟩) hb
  exact ⟨hs.sound, hl.sound⟩

end Lookahead
