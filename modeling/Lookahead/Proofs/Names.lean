import Lookahead.Proofs.Productions
import Mathlib.Data.List.Find

/-!
# What names mean

The symbol that a name in a production stands for is looked up when the name is read, and declared
if there is none (`Table.Means`). Later declarations do not change it (`Table.Means.keeps`), since
a new symbol gets a name under which none was found (`Table.keeps_declare`). This rests on how the
tokens of a text look: names, literals and the name of the invalid token cannot be taken for each
other (`Token.worded_of_read`).
-/

namespace Lookahead

namespace Token

/-! ### Words -/

variable {cs : List Char} {k l : Kind} {n : Nat} {t : Token}

theorem delimited_eq_ok {head : Nat} {o : Option Nat} (h : delimited k head o = .ok (some l, n)) :
    l = k := by
  cases o <;> cases h
  rfl

theorem map_passed_ne_ok (x : Except Nat Nat) : (x.map fun n => (none, n)) ≠ .ok (some k, n) := by
  cases x <;> nofun

/-- A name starts with what identifiers start with. -/
theorem scanWord_ident (h : scanWord cs = .ok (some .ident, n)) :
    ∃ c ds, cs.take n = c :: ds ∧ alphabet.startsIdentifier c = true := by
  unfold scanWord at h
  split at h
  · cases h
  · rename_i c ds
    split at h
    · rename_i hc
      simp only [Except.ok.injEq, Prod.mk.injEq] at h
      rw [← h.2]
      exact ⟨c, _, rfl, hc⟩
    · split at h
      · rename_i k hp
        cases h
        unfold punctuation? at hp
        split at hp <;> cases hp
      · cases h

theorem scanWord_ne_string : scanWord cs ≠ .ok (some .string, n) := by
  intro h
  unfold scanWord at h
  split at h
  · cases h
  · split at h
    · simp only [Except.ok.injEq, Prod.mk.injEq, Option.some.injEq] at h
      unfold wordKind at h
      split at h <;> exact nomatch h.1
    · split at h
      · rename_i k hp
        cases h
        unfold punctuation? at hp
        split at hp <;> cases hp
      · cases h

/-- What is scanned as a name starts like one, and what is scanned as a string starts with a
quote. -/
theorem scan_word (h : scan cs = .ok (some k, n)) (hk : k = .ident ∨ k = .string) :
    ∃ c ds, cs.take n = c :: ds ∧
      (k = .ident → alphabet.startsIdentifier c = true) ∧ (k = .string → c = '"') := by
  unfold scan at h
  split at h
  iterate 2 exact absurd h (map_passed_ne_ok _)
  · unfold scanLiteral at h
    split at h <;> cases h
    · exact ⟨_, _, rfl, nofun, fun _ => rfl⟩
    · simp at hk
  · unfold scanLiteral at h
    split at h <;> cases h <;> simp at hk
  · cases delimited_eq_ok h
    simp at hk
  · cases h
    simp at hk
  · cases delimited_eq_ok h
    simp at hk
  · split at h <;> cases h
    simp at hk
  · split at h
    · cases delimited_eq_ok h
      simp at hk
    · simp only at h
      split at h
      · cases h
      · rcases hk with rfl | rfl
        · obtain ⟨c, ds, hcs, hc⟩ := scanWord_ident h
          exact ⟨c, ds, hcs, fun _ => hc, nofun⟩
        · exact absurd h scanWord_ne_string

theorem exists_scan_of_readFrom {fuel : Nat} {p : Place} (ht : t ∈ (readFrom fuel p cs).tokens) :
    ∃ cs n, scan cs = .ok (some t.kind, n) ∧ t.chars = cs.take n := by
  induction fuel generalizing p cs with
  | zero => simp [readFrom] at ht
  | succ fuel ih =>
    cases cs with
    | nil => simp [readFrom] at ht
    | cons c cs =>
      simp only [readFrom] at ht
      split at ht
      · simp at ht
      · rename_i kind n hscan
        cases kind with
        | none => exact ih ht
        | some k =>
          rcases List.mem_cons.mp ht with rfl | ht
          · exact ⟨_, _, hscan, rfl⟩
          · exact ih ht

/-- Names and literals differ in what they start with, and neither is written as the name of the
invalid token. -/
structure Worded (t : Token) : Prop where
  literal : t.spelling.head? = some '"' ↔ t.kind ≠ .ident
  valid : String.ofList t.spelling ≠ Table.invalidName

/-- What stands for a symbol in a grammar text. -/
def isSymbol (t : Token) : Prop := t.kind = .ident ∨ t.kind = .string ∨ t.kind = .char

theorem Worded.of_cons {c : Char} {ds : List Char} (hs : t.spelling = c :: ds)
    (hc : c = '"' ↔ t.kind ≠ .ident) (hv : c ≠ '?') : t.Worded where
  literal := by simpa [hs] using hc
  valid h := by
    rw [hs] at h
    have hh := congrArg String.toList h
    simp only [Table.invalidName, String.toList_ofList] at hh
    exact hv (List.cons.inj hh).1

theorem worded_of_read {source : String} (ht : t ∈ (Token.read source).tokens)
    (hk : t.isSymbol) : t.Worded := by
  by_cases hchar : t.kind = .char
  · have hs : ∃ ds, t.spelling = '"' :: ds := by
      unfold spelling
      rw [if_pos hchar]
      split
      · exact ⟨_, rfl⟩
      · exact ⟨_, rfl⟩
    obtain ⟨ds, hs⟩ := hs
    exact .of_cons hs (by simp [hchar]) (by decide)
  · obtain ⟨cs, n, hscan, hchars⟩ := exists_scan_of_readFrom ht
    have hk : t.kind = .ident ∨ t.kind = .string := by
      simpa [isSymbol, hchar] using hk
    obtain ⟨c, ds, hcs, hname, hstring⟩ := scan_word hscan hk
    have hs : t.spelling = c :: ds := by rw [spelling, if_neg hchar, hchars, hcs]
    rcases hk with hk | hk
    · have hc := hname hk
      refine .of_cons hs (by simp [hk]; rintro rfl; exact absurd hc (by decide)) ?_
      rintro rfl
      exact absurd hc (by decide)
    · exact .of_cons hs (by simp [hk, hstring hk]) (by rw [hstring hk]; decide)

end Token

namespace Table

open Atom

/-! ### Finding symbols -/

variable {t u v : Table} {k : SymbolKind} {n nm : String} {line : Nat} {s : SymbolId}
  {name : Token} {f : Symbol → Symbol}

theorem find?_eq (t : Table) (n : String) : t.find? n =
    ((t.listed .terminal).toList.find? fun s => (t.symbol s).name == n).or
      ((t.listed .nonterminal).toList.find? fun s => (t.symbol s).name == n) :=
  List.find?_append

theorem name_of_find (hs : t.find? n = some s) : (t.symbol s).name = n := by
  simpa using List.find?_some hs

theorem find?_modifySymbol (hf : ∀ b, (f b).name = b.name) :
    (t.modifySymbol s f).find? n = t.find? n := by
  have hname := symbol_modifySymbol_congr (t := t) (p := Symbol.name) hf s
  simp only [find?_eq, hname, listed_modifySymbol]

section

variable (ht : Registered t)
include ht

/-- A list of symbols is searched as before, and the new symbol behind them. -/
theorem find?_listed_addSymbol (l : SymbolKind) :
    (((t.addSymbol k nm line).1.listed l).toList.find?
        fun s => ((t.addSymbol k nm line).1.symbol s).name == n) =
      ((t.listed l).toList.find? fun s => (t.symbol s).name == n).or
        (if k = l ∧ nm = n then some t.symbols.size else none) := by
  obtain ⟨m, -, hsym⟩ := symbol_addSymbol t k nm line
  have hold : ((t.listed l).toList.find?
      fun s => ((t.addSymbol k nm line).1.symbol s).name == n) =
        (t.listed l).toList.find? fun s => (t.symbol s).name == n := by
    refine List.find?_congr fun s hs => ?_
    have hlt := ((ht.mem l s).mp (Array.mem_toList_iff.mp hs)).1
    rw [hsym, if_neg hlt.ne]
  rw [listed_addSymbol]
  by_cases hk : k = l
  · rw [if_pos hk, Array.toList_push, List.find?_append, hold, List.find?_singleton, hsym,
      if_pos rfl]
    simp [hk]
  · rw [if_neg hk, hold]
    simp [hk]

theorem find?_addSymbol_of_ne (hn : nm ≠ n) : (t.addSymbol k nm line).1.find? n = t.find? n := by
  simp [find?_eq, find?_listed_addSymbol ht, hn]

theorem find?_addSymbol_self (hk : k ≠ .pragma) (hn : t.find? nm = none) :
    (t.addSymbol k nm line).1.find? nm = some t.symbols.size := by
  rw [find?_eq, Option.or_eq_none_iff] at hn
  rw [find?_eq, find?_listed_addSymbol ht, find?_listed_addSymbol ht, hn.1, hn.2]
  cases k <;> simp at hk ⊢

end

/-! ### The meaning of a name -/

/-- The symbol that a name stands for. The empty literal stands for a symbol of its own each time,
unless it is a declared token. -/
def Means (t : Table) (name : Token) (s : SymbolId) : Prop :=
  match resolve? t name with
  | some r => r = s
  | none => String.ofList name.spelling = "\"\"" ∧ (t.symbol s).name = invalidName

/-- The table `u` has the symbols of `t` with their names, and names mean in it what they mean in
`t`. -/
structure Keeps (t u : Table) : Prop where
  size_le : t.symbols.size ≤ u.symbols.size
  name : ∀ s < t.symbols.size, (u.symbol s).name = (t.symbol s).name
  kind : ∀ s < t.symbols.size, (u.symbol s).kind = (t.symbol s).kind
  resolve : ∀ name s, name.Worded → resolve? t name = some s → resolve? u name = some s
  unresolved : ∀ name, String.ofList name.spelling = "\"\"" → resolve? t name = none →
    resolve? u name = none

theorem Keeps.refl (t : Table) : Keeps t t :=
  ⟨le_rfl, fun _ _ => rfl, fun _ _ => rfl, fun _ _ _ h => h, fun _ _ h => h⟩

theorem Keeps.trans (h : Keeps t u) (h' : Keeps u v) : Keeps t v where
  size_le := h.size_le.trans h'.size_le
  name s hs := (h'.name s (hs.trans_le h.size_le)).trans (h.name s hs)
  kind s hs := (h'.kind s (hs.trans_le h.size_le)).trans (h.kind s hs)
  resolve n s hn hs := h'.resolve n s hn (h.resolve n s hn hs)
  unresolved n hn hs := h'.unresolved n hn (h.unresolved n hn hs)

theorem Keeps.onGraph (t : Table) (g : Graph) : Keeps t { t with graph := g } :=
  ⟨le_rfl, fun _ _ => rfl, fun _ _ => rfl, fun _ _ _ h => h, fun _ _ h => h⟩

theorem Keeps.modifySymbol (t : Table) (s : SymbolId) (hn : ∀ b, (f b).name = b.name)
    (hk : ∀ b, (f b).kind = b.kind) : Keeps t (t.modifySymbol s f) := by
  have hr (name : Token) : resolve? (t.modifySymbol s f) name = resolve? t name := by
    simp only [resolve?, find?_modifySymbol hn]
    rfl
  exact
    { size_le := by simp
      name := fun c _ => symbol_modifySymbol_congr (p := Symbol.name) hn s c
      kind := fun c _ => symbol_modifySymbol_congr (p := Symbol.kind) hk s c
      resolve := fun n c _ h => (hr n).trans h
      unresolved := fun n _ h => (hr n).trans h }

theorem Means.lt (ht : Registered t) (h : t.Means name s) : s < t.symbols.size := by
  unfold Means at h
  split at h
  · rename_i r hr
    exact h ▸ lt_of_resolve ht hr
  · by_contra hs
    rw [symbol_of_size_le (Nat.le_of_not_lt hs)] at h
    exact absurd h.2 (by decide)

theorem Means.keeps (ht : Registered t) (h : t.Means name s) (hk : Keeps t u) (hn : name.Worded) :
    u.Means name s := by
  have hs := h.lt ht
  unfold Means at h ⊢
  split at h
  · rename_i r hr
    rw [hk.resolve _ _ hn hr]
    exact h
  · rename_i hr
    rw [hk.unresolved _ h.1 hr]
    exact ⟨h.1, (hk.name s hs).trans h.2⟩

/-! ### Declaring a name -/

/-- Names that mean something go on meaning it when a symbol is added under another name. -/
theorem Keeps.addSymbol (ht : Registered t)
    (hn : ∀ name, name.Worded → String.ofList name.spelling = nm → resolve? t name = none)
    (he : nm ≠ "\"\"") : Keeps t (t.addSymbol k nm line).1 where
  size_le := by simp
  name s hs := by
    obtain ⟨m, -, hsym⟩ := symbol_addSymbol t k nm line
    rw [hsym, if_neg hs.ne]
  kind s hs := (Grows.addSymbol t k nm line).kind s hs
  resolve name s hw hs := by
    have hne : nm ≠ String.ofList name.spelling := fun h => by
      rw [hn name hw h.symm] at hs
      cases hs
    simpa only [resolve?, find?_addSymbol_of_ne ht hne, literal?, literals_addSymbol] using hs
  unresolved name hw hs := by
    have hne : nm ≠ String.ofList name.spelling := hw ▸ he
    simpa only [resolve?, find?_addSymbol_of_ne ht hne, literal?, literals_addSymbol] using hs

/-- Names that are spelled alike mean the same. -/
theorem resolve?_congr {m n : Token} (hm : m.Worded) (hn : n.Worded)
    (h : String.ofList m.spelling = String.ofList n.spelling) : resolve? t m = resolve? t n := by
  have hspell := String.ofList_injective h
  have hkind : m.kind = .ident ↔ n.kind = .ident := by
    rw [← not_iff_not, ← ne_eq, ← ne_eq, ← hm.literal, ← hn.literal, hspell]
  simp only [resolve?, hspell, hkind]

theorem find?_eq_none_of_resolve? (hr : resolve? t name = none) :
    t.find? (String.ofList name.spelling) = none := by
  simp only [resolve?] at hr
  cases hf : t.find? (String.ofList name.spelling) with
  | none => rfl
  | some s => simp [hf] at hr

/-- A name without a meaning gets one by being declared. -/
theorem keeps_declare (ht : Registered t) (hw : name.Worded) (hr : resolve? t name = none)
    (hk : k ≠ .pragma) (line : Nat) :
    Keeps t (t.declare k (String.ofList name.spelling) line).value.1 ∧
      (t.declare k (String.ofList name.spelling) line).value.1.Means name
        (t.declare k (String.ofList name.spelling) line).value.2 := by
  unfold declare
  split
  · rename_i he
    have hkeeps : Keeps t (t.addSymbol k invalidName line).1 :=
      .addSymbol ht (fun n hn h => absurd h hn.valid) (by decide)
    refine ⟨hkeeps, ?_⟩
    obtain ⟨m, -, hsym⟩ := symbol_addSymbol t k invalidName line
    unfold Means
    simp only [Noted.value_bind, Noted.value_pure, hkeeps.unresolved _ he hr, snd_addSymbol, hsym]
    exact ⟨he, by simp⟩
  · rename_i he
    refine ⟨.addSymbol ht (fun n hn h => (resolve?_congr hn hw h).trans hr) he, ?_⟩
    have hfind := find?_eq_none_of_resolve? hr
    simp only [Means, resolve?, Noted.value_pure, find?_addSymbol_self ht hk hfind, snd_addSymbol]

theorem keeps_declareUse (ht : Registered t) (hw : name.Worded) (hr : resolve? t name = none) :
    Keeps t (declareUse t name).value.1 ∧
      (declareUse t name).value.1.Means name (declareUse t name).value.2 := by
  unfold declareUse
  split
  · exact keeps_declare ht hw hr (by simp) _
  · obtain ⟨hk, hm⟩ := keeps_declare ht hw hr (k := .terminal) (by simp) name.line
    have hu := (Continues.declare t .terminal (String.ofList name.spelling) name.line).registered ht
    simp only [Noted.value_bind, Noted.value_pure]
    have hmod := Keeps.modifySymbol
      (t.declare .terminal (String.ofList name.spelling) name.line).value.1
      (t.declare .terminal (String.ofList name.spelling) name.line).value.2
      (f := fun s => { s with tokenKind := .literal }) (fun _ => rfl) fun _ => rfl
    exact ⟨hk.trans hmod, hm.keeps hu hmod hw⟩

theorem means_of_resolve (hs : resolve? t name = some s) : t.Means name s := by
  simp [Means, hs]

/-- A use of a name declares it unless it means something. -/
theorem keeps_used (ht : Registered t) (hw : name.Worded) :
    Keeps t (used t name).1 ∧ (used t name).1.Means name (used t name).2 := by
  unfold used
  split
  · rename_i s hs
    exact ⟨.refl t, means_of_resolve hs⟩
  · rename_i hs
    exact keeps_declareUse ht hw hs

theorem text_of_ident (hn : name.kind = .ident) : String.ofList name.spelling = name.text := by
  simp [Token.spelling, Token.text, hn]

theorem resolve?_of_ident (hn : name.kind = .ident) : resolve? t name = t.find? name.text := by
  simp only [resolve?, hn, if_true, text_of_ident hn]
  cases t.find? name.text <;> rfl

/-- An identifier means the symbol that is found under it. -/
theorem means_iff_of_ident (hn : name.kind = .ident) (hw : name.Worded) :
    t.Means name s ↔ t.find? name.text = some s := by
  unfold Means
  rw [resolve?_of_ident hn]
  cases t.find? name.text with
  | some r => simp
  | none =>
    simp only [reduceCtorEq, iff_false, not_and]
    intro he
    have hh := hw.literal
    rw [String.ofList_injective (he.trans (by rfl : _ = String.ofList ['"', '"']))] at hh
    simp [hn] at hh

/-- The head of a production means its symbol. -/
theorem keeps_declareName (ht : Registered t) (hn : name.kind = .ident) (hw : name.Worded) :
    Keeps t (Production.declareName t name).value.1.1 ∧
      (Production.declareName t name).value.1.1.Means name
        (Production.declareName t name).value.1.2 := by
  unfold Production.declareName
  split
  · rename_i hf
    have h := keeps_declare ht hw ((resolve?_of_ident hn).trans hf) (k := .nonterminal) (by simp)
      name.line
    rwa [text_of_ident hn] at h
  · rename_i s hf
    simp only [Noted.value_bind, Noted.value_ite, Noted.value_pure, ite_self]
    have hmod := Keeps.modifySymbol t s (f := fun s => { s with line := name.line }) (fun _ => rfl)
      fun _ => rfl
    exact ⟨hmod, ((means_iff_of_ident hn hw).mpr hf).keeps ht hmod hw⟩

end Table

end Lookahead
