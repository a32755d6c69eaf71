import Lookahead.Proofs.Rereading
import Mathlib.Data.List.Perm.Basic

/-!
# Texts with their productions in another order

The productions of a text are cut out of its tokens, from a name to the next dot
(`Token.IsChunk`), and put in another order (`Reordered`). Such a text is read as the same
definition with its productions in that order (`Definition.read_reordered`).
-/

namespace Lookahead

/-- The tokens of a production: a name and what comes behind it up to the first dot. -/
def Token.IsChunk (ts : List Token) : Prop :=
  ∃ name body dot, ts = name :: (body ++ [dot]) ∧ name.kind = .ident ∧
    (∀ t ∈ body, t.kind ≠ .dot) ∧ dot.kind = .dot

/-- The texts consist of the same words but for the order of their productions. Up to the first
production they are the same to the letter. -/
def Reordered (source source' : String) : Prop :=
  ∃ (front rest rest' : List Token) (start stop stop' : Token) (chunks chunks' : List (List Token)),
    Token.read source = ⟨front ++ start :: (chunks.flatten ++ stop :: rest), none⟩ ∧
    Token.read source' = ⟨front ++ start :: (chunks'.flatten ++ stop' :: rest'), none⟩ ∧
    (∀ t ∈ front, t.kind ≠ .keyword .productions) ∧ start.kind = .keyword .productions ∧
    (∀ c ∈ chunks, Token.IsChunk c) ∧ stop.kind = .keyword .ending ∧
    (chunks'.map (·.map Token.word)).Perm (chunks.map (·.map Token.word)) ∧
    (stop' :: rest').map Token.word = (stop :: rest).map Token.word

/-- The definitions differ in the order of their productions, and in where the words of these and
the name behind `END` stand. -/
structure Definition.Shuffled (d d' : Definition) : Prop where
  name : d'.name = d.name
  others : { d'.sections with productions := [] } = { d.sections with productions := [] }
  productions : (d'.sections.productions.map (·.map Token.word)).Perm
    (d.sections.productions.map (·.map Token.word))
  ending : d'.ending.word = d.ending.word

namespace Token

theorem kind_eq_of_word {t t' : Token} (h : t'.word = t.word) : t'.kind = t.kind := by
  rw [← kind_word t', h, kind_word]

theorem forall₂_of_map_word {R : Token → Token → Prop} {ts us : List Token}
    (h : us.map word = ts.map word) (hR : ∀ t ∈ ts, ∀ u, word t = word u → R t u) :
    List.Forall₂ R ts us := by
  induction ts generalizing us with
  | nil =>
    obtain rfl := List.map_eq_nil_iff.mp h
    exact .nil
  | cons t ts ih =>
    obtain ⟨u, us, rfl, hu, hus⟩ := List.map_eq_cons_iff.mp h
    exact .cons (hR t (by simp) u hu.symm) (ih hus fun t ht => hR t (by simp [ht]))

/-- Tokens with these words are read as a production with those, wherever they stand. -/
def Yields (ws : List Token) (q : Production) : Prop :=
  ∀ ts rest, ts.map word = ws → ∃ name us p, ts = name :: us ∧ name.kind = .ident ∧
    Production.read name (us ++ rest) = .done p rest ∧ p.map word = q

/-- What is read from a chunk is read from its words. -/
theorem IsChunk.yields {name : Token} {us rest left : List Token} {p : Production}
    (hc : IsChunk (name :: us)) (h : Production.read name (us ++ rest) = .done p left) :
    left = rest ∧ Yields ((name :: us).map word) (p.map word) := by
  obtain ⟨_, body, dot, ⟨⟩, hname, hbody, hdot⟩ := hc
  simp only [List.append_assoc, List.singleton_append] at h
  have hagree (name' dot' : Token) (body' rest' : List Token) (hn : name'.word = name.word)
      (hb : body'.map word = body.map word) (hd : dot'.word = dot.word) : left = rest ∧
        ∃ p', Production.read name' (body' ++ dot' :: rest') = .done p' rest' ∧
          p'.map word = p.map word := by
    refine Production.read_agree
      (S := ⟨word, kind_word, dot, dot', kind_eq_of_word hd, rest, rest'⟩)
      hdot hn.symm (forall₂_of_map_word hb fun t ht u hu => ⟨hu, ?_⟩) h
    rw [hdot]
    exact hbody t ht
  refine ⟨(hagree name dot body [] rfl rfl rfl).1, fun ts rest' hts => ?_⟩
  simp only [List.map_cons, List.map_append, List.map_nil] at hts
  obtain ⟨name', us', rfl, hn, hus⟩ := List.map_eq_cons_iff.mp hts
  obtain ⟨body', ds, rfl, hb, hds⟩ := List.map_eq_append_iff.mp hus
  obtain ⟨dot', _, rfl, hd, hnil⟩ := List.map_eq_cons_iff.mp hds
  obtain rfl := List.map_eq_nil_iff.mp hnil
  obtain ⟨-, p', hp', hw⟩ := hagree name' dot' body' rest' hn hb hd
  exact ⟨name', body' ++ [dot'], p', rfl, (kind_eq_of_word hn).trans hname, by simpa using hp', hw⟩

end Token

namespace Definition

open Token

variable {stop : Token} {rest left : List Token} {ps qs : List Production}

/-- Productions are read chunk by chunk. -/
theorem yields_of_readMany {chunks : List (List Token)} (hc : ∀ c ∈ chunks, IsChunk c)
    (hs : stop.kind = .keyword .ending) {fuel : Nat} (hf : chunks.flatten.length < fuel)
    (h : readMany isName Production.read fuel (chunks.flatten ++ stop :: rest) = .done ps left) :
    left = stop :: rest ∧
      List.Forall₂ Yields (chunks.map (·.map word)) (ps.map (·.map word)) := by
  induction chunks generalizing fuel ps with
  | nil =>
    obtain ⟨fuel, rfl⟩ := Nat.exists_eq_add_one_of_ne_zero (Nat.ne_zero_of_lt hf)
    simp only [List.flatten_nil, List.nil_append, readMany, isName, hs, beq_iff_eq, reduceCtorEq,
      if_false, Reading.done.injEq] at h
    obtain ⟨rfl, rfl⟩ := h
    exact ⟨rfl, .nil⟩
  | cons c chunks ih =>
    obtain ⟨fuel, rfl⟩ := Nat.exists_eq_add_one_of_ne_zero (Nat.ne_zero_of_lt hf)
    have hcc := hc c (by simp)
    obtain ⟨name, body, dot, rfl, hname, -⟩ := id hcc
    simp only [List.flatten_cons, List.length_append, List.length_cons] at hf
    simp only [List.flatten_cons, List.cons_append, readMany, isName, hname, beq_self_eq_true,
      if_true] at h
    split at h
    · cases h
    · rename_i p us hp
      rw [List.append_assoc] at hp
      obtain ⟨rfl, hy⟩ := hcc.yields hp
      obtain ⟨ps', hps, rfl⟩ := Reading.map_eq_done.mp (Reading.mapPart_eq_done.mp h)
      obtain ⟨rfl, hys⟩ := ih (fun c h => hc c (by simp [h])) (by omega) hps
      exact ⟨rfl, .cons hy hys⟩

theorem readMany_of_yields (rest : List Token) {chunks : List (List Token)}
    (hy : List.Forall₂ Yields (chunks.map (·.map word)) qs) (hs : stop.kind = .keyword .ending)
    {fuel : Nat} (hf : chunks.flatten.length < fuel) :
    ∃ ps, readMany isName Production.read fuel (chunks.flatten ++ stop :: rest) =
        .done ps (stop :: rest) ∧ ps.map (·.map word) = qs := by
  induction chunks generalizing fuel qs with
  | nil =>
    obtain ⟨fuel, rfl⟩ := Nat.exists_eq_add_one_of_ne_zero (Nat.ne_zero_of_lt hf)
    cases hy
    exact ⟨[], by simp [readMany, isName, hs], rfl⟩
  | cons c chunks ih =>
    obtain ⟨fuel, rfl⟩ := Nat.exists_eq_add_one_of_ne_zero (Nat.ne_zero_of_lt hf)
    obtain _ | ⟨hq, hy⟩ := hy
    obtain ⟨name, us, p, rfl, hname, hp, rfl⟩ := hq c (chunks.flatten ++ stop :: rest) rfl
    simp only [List.flatten_cons, List.length_append, List.length_cons] at hf
    have hf : chunks.flatten.length < fuel := by omega
    obtain ⟨ps, hps, rfl⟩ := ih hy hf
    refine ⟨p :: ps, ?_, rfl⟩
    simp only [List.flatten_cons, List.cons_append, List.append_assoc, readMany, isName, hname,
      beq_self_eq_true, if_true, hp]
    rw [hps]
    rfl

/-- A text with its productions in another order is read as the same definition with its productions
in another order. -/
theorem read_reordered {source source' : String} (h : Reordered source source') {d : Definition}
    (hd : read source = .ok d) : ∃ d', read source' = .ok d' ∧ d.Shuffled d' := by
  obtain ⟨front, rest, rest', start, stop, stop', chunks, chunks', hs, hs', hfront, hstart, hchunks,
    hkind, hperm, hlast⟩ := h
  have hread : ∃ left,
      readTokens (front ++ start :: (chunks.flatten ++ stop :: rest)) = .done d left := by
    unfold read at hd
    rw [hs] at hd
    dsimp only at hd
    split at hd
    · rename_i left hr
      cases hd
      exact ⟨left, hr⟩
    · cases hd
  obtain ⟨left, hread⟩ := hread
  obtain ⟨name, s, hbody, hsame⟩ := readTokens_eq_readBody hstart hfront hread
  simp only [readBody, Reading.andThen_eq_done, Reading.mapPart_eq_done, between_eq_done,
    expect_eq_done] at hbody
  obtain ⟨ps, ts, hps, _, ts₁, ⟨rfl, -⟩, ending, ts₂, ⟨rfl, hending⟩, dot, ts₃, ⟨rfl, hdot⟩, hd⟩ :=
    hbody
  cases hd
  obtain ⟨hrest, hy⟩ := yields_of_readMany hchunks hkind (by simp) hps
  cases hrest
  -- the same words end the other text
  simp only [List.map_cons, List.cons.injEq] at hlast
  obtain ⟨hstop, hlast⟩ := hlast
  obtain ⟨ending', us, rfl, he, hus⟩ := List.map_eq_cons_iff.mp hlast
  obtain ⟨dot', left', rfl, hdw, -⟩ := List.map_eq_cons_iff.mp hus
  obtain ⟨qs, hqs, hqp⟩ := List.perm_comp_forall₂ hperm hy
  have hkind' := (kind_eq_of_word hstop).trans hkind
  have hfuel : chunks'.flatten.length <
      (chunks'.flatten ++ stop' :: ending' :: dot' :: left').length := by simp
  obtain ⟨ps', hps', rfl⟩ := readMany_of_yields (ending' :: dot' :: left') hqs hkind' hfuel
  refine ⟨⟨name, { s with productions := ps' }, ending'⟩, ?_, rfl, rfl, hqp, he⟩
  have hexpect {k : Token.Kind} {what : Expected} {t : Token} (ht : t.kind = k) (ts : List Token) :
      expect k what (t :: ts) = .done t ts := expect_eq_done.mpr ⟨rfl, ht⟩
  unfold read
  rw [hs']
  simp only [hsame, readBody, hps', Reading.mapPart, Reading.andThen, between, hexpect hkind',
    hexpect ((kind_eq_of_word he).trans hending), hexpect ((kind_eq_of_word hdw).trans hdot)]

end Definition

end Lookahead
