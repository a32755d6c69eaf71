import Lookahead.Proofs.Attributes

/-!
# Tokens that are one literal

A token whose structure is one literal, parentheses aside, can be written as that literal, and
every other structure makes a class of the token. Whether there is more than one literal is told by
what has been met so far on the way through the structure from left to right (`Expr.content`), and
that comes to the same as looking for the literal (`Expr.content_nothing`). One declaration adds its
symbol and at most one literal (`TokenDecl.adds_declare`), so before the productions the literals
are those of the declarations (`Sections.enrolls_front`), and nothing behind changes them
(`Table.Retains`).
-/

namespace Lookahead

open Table

/-! ### What the structure of a token comes to -/

/-- What has been met of the structure of a token. -/
inductive Content where
  | nothing
  | single (t : Token)
  | structured
deriving DecidableEq

namespace Expr

/-- What has been met behind an expression, if `c` has been met before. -/
def content : Content → Expr TokenAtom → Content
  | c, empty => c
  | _, atom (.className _) => .structured
  | .nothing, atom (.literal t) => .single t
  | _, atom (.literal _) => .structured
  | c, seq e f => f.content (e.content c)
  | _, alt _ _ => .structured
  | c, group .round e => e.content c
  | _, group _ _ => .structured

/-- The expression without the parentheses around it. -/
def bare {α : Type} : Expr α → Expr α
  | group .round e => e.bare
  | e => e

variable {e : Expr TokenAtom} {c : Content} {t : Token}

theorem literal?_eq_some_iff : e.literal? = some t ↔ e.bare = .atom (.literal t) := by
  induction e with
  | empty => simp [literal?, bare]
  | atom a => cases a <;> simp [literal?, bare]
  | seq e f | alt e f => simp [literal?, bare]
  | group b e ih => cases b <;> simp [literal?, bare, ih]

/-- Once something has been met, everything further is too much. -/
theorem content_of_ne (he : e.Solid) (hc : c ≠ .nothing) : e.content c = .structured := by
  induction e generalizing c with
  | empty => exact he.elim
  | atom a =>
    cases a with
    | className n => rfl
    | literal t =>
      cases c with
      | nothing => exact absurd rfl hc
      | single | structured => rfl
  | seq e f ihe ihf =>
    rw [content, ihe he.1 hc]
    exact ihf he.2 nofun
  | alt e f => rfl
  | group b e ih =>
    cases b with
    | round => exact ih he hc
    | _ => rfl

theorem content_nothing (he : e.Solid) :
    e.content .nothing = (e.literal?.map Content.single).getD .structured := by
  induction e with
  | empty => exact he.elim
  | atom a => cases a <;> rfl
  | seq e f ihe _ =>
    have hne : e.content .nothing ≠ .nothing := by
      rw [ihe he.1]
      cases e.literal? <;> nofun
    change f.content (e.content .nothing) = .structured
    exact content_of_ne he.2 hne
  | alt e f => rfl
  | group b e ih =>
    cases b with
    | round => exact ih he
    | _ => rfl

end Expr

/-! ### One declaration -/

namespace Table

variable {t u v : Table} {k : SymbolKind} {n : String} {tk : TokenKind} {line : Nat}
  {lit : Option String} {s : SymbolId} {f : Symbol → Symbol}

/-- The table `u` has the symbols of `t` and one more, and the literals of `t`, and one more if the
new symbol has a literal. -/
structure Adds (t u : Table) (k : SymbolKind) (n : String) (tk : TokenKind)
    (lit : Option String) : Prop where
  size : u.symbols.size = t.symbols.size + 1
  old : ∀ s < t.symbols.size, u.symbol s = t.symbol s
  kind : (u.symbol t.symbols.size).kind = k
  name : (u.symbol t.symbols.size).name = n
  tokenKind : (u.symbol t.symbols.size).tokenKind = tk
  literals : u.literals.toList = t.literals.toList ++ (lit.map (·, t.symbols.size)).toList
  fresh : ∀ l ∈ lit, ∀ p ∈ t.literals.toList, p.1 ≠ l

namespace Adds

theorem addSymbol (t : Table) (k : SymbolKind) (n : String) (line : Nat) :
    Adds t (t.addSymbol k n line).1 k n .fixed none := by
  obtain ⟨m, -, hsym⟩ := symbol_addSymbol t k n line
  have hself := hsym t.symbols.size
  rw [if_pos rfl] at hself
  refine ⟨size_addSymbol, fun s hs => ?_, by rw [hself], by rw [hself], by rw [hself], ?_, nofun⟩
  · rw [hsym, if_neg hs.ne]
  · rw [literals_addSymbol]
    exact (List.append_nil _).symm

theorem of_same (h : Adds t u k n tk lit) (hs : v.symbols = u.symbols)
    (hl : v.literals = u.literals) : Adds t v k n tk lit := by
  have hsym : v.symbol = u.symbol := by
    funext s
    rw [Table.symbol, hs, Table.symbol]
  exact ⟨hs ▸ h.size, hsym ▸ h.old, hsym ▸ h.kind, hsym ▸ h.name, hsym ▸ h.tokenKind,
    hl ▸ h.literals, h.fresh⟩

/-- The new symbol can be changed further. -/
theorem modifySymbol (h : Adds t u k n tk lit) (hk : ∀ b, (f b).kind = b.kind)
    (hn : ∀ b, (f b).name = b.name) :
    Adds t (u.modifySymbol t.symbols.size f) k n (f (u.symbol t.symbols.size)).tokenKind lit where
  size := size_modifySymbol.trans h.size
  old s hs := by
    rw [symbol_modifySymbol, if_neg (fun hc => hs.ne hc.1.symm)]
    exact h.old s hs
  kind := (symbol_modifySymbol_congr (p := Symbol.kind) hk _ _).trans h.kind
  name := (symbol_modifySymbol_congr (p := Symbol.name) hn _ _).trans h.name
  tokenKind := by rw [symbol_modifySymbol, if_pos ⟨rfl, h.size ▸ Nat.lt_succ_self _⟩]
  literals := h.literals
  fresh := h.fresh

theorem addLiteral (h : Adds t u k n tk none) {l : String} (hl : u.literal? l = none) :
    Adds t (u.addLiteral l t.symbols.size) k n tk (some l) := by
  have hnone : ∀ p ∈ u.literals, p.1 ≠ l := by
    simpa [literal?] using hl
  have hliterals : u.literals = t.literals := by
    simpa using h.literals
  have hpush : u.addLiteral l t.symbols.size =
      { u with literals := u.literals.push (l, t.symbols.size) } := by
    have hfind : (u.literals.findIdx? fun p => p.1 == l) = none := by simpa using hnone
    rw [Table.addLiteral, hfind]
  rw [hpush]
  refine ⟨h.size, h.old, h.kind, h.name, h.tokenKind, ?_, ?_⟩
  · rw [Array.toList_push, hliterals]
    rfl
  · rintro l ⟨⟩ p hp
    exact hnone p (hliterals ▸ Array.mem_toList_iff.mp hp)

end Adds

end Table

namespace TokenDecl

variable {t : Table} {k : SymbolKind} {d : TokenDecl}

/-- The literal that the declaration is for, as it is spelled. -/
def lone? (d : TokenDecl) : Option String :=
  (d.body.bind Expr.literal?).map fun t => String.ofList t.spelling

/-- How the declaration says that the token is recognised. -/
def tokenKind (d : TokenDecl) : TokenKind :=
  match d.body with
  | some e => if e.literal?.isSome then .fixed else .classes
  | none => if d.name.kind = .string then .literal else .fixed

/-- The graph of a structure concerns neither symbols nor literals. -/
theorem same_build (t : Table) (e : Expr TokenAtom) :
    (e.build TokenAtom.build t).value.1.symbols = t.symbols ∧
      (e.build TokenAtom.build t).value.1.literals = t.literals := by
  have hatom (u : Table) (a : TokenAtom) : (a.build u).value.1.symbols = u.symbols ∧
      (a.build u).value.1.literals = u.literals := by
    cases a with
    | className n =>
      unfold TokenAtom.build
      dsimp only
      split
      · exact ⟨rfl, rfl⟩
      · unfold addClass
        split <;> exact ⟨rfl, rfl⟩
    | literal l =>
      simp only [TokenAtom.build, addLiteralChars, Noted.value_bind, Noted.value_ite,
        Noted.value_pure, ite_self]
      exact ⟨rfl, rfl⟩
  refine Expr.kept_build (E := fun _ => True)
    (P := fun u => u.symbols = t.symbols ∧ u.literals = t.literals) (fun _ _ h => h)
    (fun u a _ hu _ => ?_) e e.all_true ⟨rfl, rfl⟩ fun _ _ => trivial
  exact ⟨(hatom u a).1.trans hu.1, (hatom u a).2.trans hu.2⟩

/-- The new symbol gets its structure, and its literal if that is all there is. -/
theorem adds_setBody {u : Table} {n : String} {name : Token} {e : Expr TokenAtom}
    (h : Adds t u k n .fixed none) (hr : (setBody u t.symbols.size name e).reports = []) :
    Adds t (setBody u t.symbols.size name e).value k n
      (if e.literal?.isSome then .fixed else .classes)
      (e.literal?.map fun t => String.ofList t.spelling) := by
  obtain ⟨hs, hl⟩ := same_build u e
  have hbuild := h.of_same (v := (e.build TokenAtom.build u).value.1.onGraph
    (·.finish (e.build TokenAtom.build u).value.2)) hs hl
  have hname : name.kind ≠ .string := fun hk => by
    simp [setBody, hk] at hr
  simp only [setBody, if_neg hname, Noted.reports_bind, Noted.value_bind,
    List.append_eq_nil_iff] at hr ⊢
  cases he : e.literal? with
  | none => exact hbuild.modifySymbol (fun _ => rfl) fun _ => rfl
  | some l =>
    have hnone : ((e.build TokenAtom.build u).value.1.onGraph
        (·.finish (e.build TokenAtom.build u).value.2)).literal? (String.ofList l.spelling) =
          none := by
      by_contra hsome
      simp [he, Option.isSome_iff_ne_none, hsome] at hr
    simpa [hnone] using hbuild.addLiteral hnone

theorem adds_action {u : Table} {n : String} {tk : TokenKind} {lit : Option String}
    (h : Adds t u k n tk lit) (action : Option Token) : Adds t (match action with
      | some a => setAction k u t.symbols.size a
      | none => return u : Noted Table).value k n tk lit := by
  cases action with
  | none => exact h
  | some a =>
    simp only [setAction, Noted.value_bind, Noted.value_ite, Noted.value_pure, ite_self]
    have hmodify := h.modifySymbol (f := fun s => { s with action := some a.actionSpan })
      (fun _ => rfl) fun _ => rfl
    rwa [h.tokenKind] at hmodify

/-- Nothing is reported of a name that is new and not the empty literal. -/
theorem value_declareName {name : Token} (h : (declareName k t name).reports = []) :
    (declareName k t name).value = (t.addSymbol k name.text name.line) := by
  unfold declareName at h ⊢
  cases hfind : t.find? name.text with
  | some s => simp [hfind] at h
  | none =>
    simp only [hfind, reports_declare_eq_nil] at h
    simp [Table.declare, h]

/-- A declaration that nothing is wrong with adds its symbol. -/
theorem adds_declare (h : (d.declare k t).reports = []) :
    Adds t (d.declare k t).value k d.name.text d.tokenKind d.lone? := by
  unfold declare at h ⊢
  rw [Noted.reports_bind, List.append_eq_nil_iff] at h
  obtain ⟨hname, hbody⟩ := h
  have hadd := Adds.addSymbol t k d.name.text d.name.line
  simp only [Noted.value_bind, value_declareName hname, snd_addSymbol] at hbody ⊢
  unfold tokenKind lone?
  cases hb : d.body with
  | some e =>
    rw [hb, Noted.reports_bind, List.append_eq_nil_iff] at hbody
    exact adds_action (adds_setBody hadd hbody.1) d.action
  | none =>
    refine adds_action (u := if d.name.kind = .string then _ else _) ?_ d.action
    split
    · exact hadd.modifySymbol (fun _ => rfl) fun _ => rfl
    · exact hadd

end TokenDecl

/-! ### One declaration after the other -/

/-- The literals of declarations, with the symbols that these get one after the other. -/
def literalsOf (ds : List TokenDecl) : List (String × SymbolId) :=
  (ds.zipIdx 1).filterMap fun p => p.1.lone?.map (·, p.2)

theorem mem_literalsOf {ds : List TokenDecl} {l : String} {i : Nat} {d : TokenDecl}
    (hd : ds[i]? = some d) : (l, i + 1) ∈ literalsOf ds ↔ d.lone? = some l := by
  simp only [literalsOf, List.mem_filterMap, Option.map_eq_some_iff, Prod.mk.injEq]
  constructor
  · rintro ⟨⟨e, j⟩, hmem, m, he, rfl, rfl⟩
    have hsome : ds[i]? = some e := (List.mem_zipIdx_iff_le_and_getElem?_sub.mp hmem).2
    obtain rfl := Option.some.inj (hd.symm.trans hsome)
    exact he
  · intro hl
    refine ⟨(d, i + 1), ?_, l, hl, rfl, rfl⟩
    rw [Nat.add_comm, List.mk_add_mem_zipIdx_iff_getElem?]
    exact hd

namespace Table

variable {ds : List (SymbolKind × TokenDecl)} {t u : Table} {k : SymbolKind} {d : TokenDecl}

/-- The symbols are the end of input and those of the declarations, and so are the literals. -/
structure Enrolls (ds : List (SymbolKind × TokenDecl)) (t : Table) : Prop where
  size : t.symbols.size = ds.length + 1
  kind : ∀ i p, ds[i]? = some p → (t.symbol (i + 1)).kind = p.1
  name : ∀ i p, ds[i]? = some p → (t.symbol (i + 1)).name = p.2.name.text
  tokenKind : ∀ i p, ds[i]? = some p → (t.symbol (i + 1)).tokenKind = p.2.tokenKind
  eof : (t.symbol 0).kind = .terminal ∧ (t.symbol 0).name = "EOF"
  literals : t.literals.toList = literalsOf (ds.map (·.2))
  nodup : (t.literals.toList.map (·.1)).Nodup

theorem enrolls_empty : Enrolls [] empty where
  size := rfl
  kind _ _ h := by simp at h
  name _ _ h := by simp at h
  tokenKind _ _ h := by simp at h
  eof := ⟨rfl, rfl⟩
  literals := rfl
  nodup := .nil

namespace Enrolls

theorem of_same (h : Enrolls ds t) (hs : u.symbols = t.symbols) (hl : u.literals = t.literals) :
    Enrolls ds u := by
  have hsym : u.symbol = t.symbol := by
    funext s
    rw [Table.symbol, hs, Table.symbol]
  exact ⟨hs ▸ h.size, hsym ▸ h.kind, hsym ▸ h.name, hsym ▸ h.tokenKind, hsym ▸ h.eof,
    hl ▸ h.literals, hl ▸ h.nodup⟩

/-- A declaration is enrolled behind the others. -/
theorem append (h : Enrolls ds t) (hu : Adds t u k d.name.text d.tokenKind d.lone?) :
    Enrolls (ds ++ [(k, d)]) u := by
  have hcases (i : Nat) (p : SymbolKind × TokenDecl) (hp : (ds ++ [(k, d)])[i]? = some p) :
      (ds[i]? = some p ∧ u.symbol (i + 1) = t.symbol (i + 1)) ∨
        (p = (k, d) ∧ i + 1 = t.symbols.size) := by
    rcases Nat.lt_or_ge i ds.length with hi | hi
    · rw [List.getElem?_append_left hi] at hp
      exact .inl ⟨hp, hu.old _ (by rw [h.size]; omega)⟩
    · rw [List.getElem?_append_right hi, List.getElem?_singleton] at hp
      split at hp
      · exact .inr ⟨(Option.some.inj hp).symm, by rw [h.size]; omega⟩
      · cases hp
  refine ⟨by rw [hu.size, h.size, List.length_append]; rfl, fun i p hp => ?_, fun i p hp => ?_,
    fun i p hp => ?_, ?_, ?_, ?_⟩
  iterate 3
    rcases hcases i p hp with ⟨hp, hsym⟩ | ⟨rfl, hi⟩
    · rw [hsym]
      first
        | exact h.kind i p hp
        | exact h.name i p hp
        | exact h.tokenKind i p hp
    · rw [hi]
      first
        | exact hu.kind
        | exact hu.name
        | exact hu.tokenKind
  · rw [hu.old 0 (h.size ▸ Nat.succ_pos _)]
    exact h.eof
  · rw [hu.literals, h.literals, h.size, literalsOf, literalsOf, List.map_append,
      List.zipIdx_append, List.filterMap_append, List.length_map, Nat.add_comm]
    rfl
  · rw [hu.literals, List.map_append, List.nodup_append]
    refine ⟨h.nodup, ?_, ?_⟩
    · cases d.lone? <;> simp
    · intro a ha b hb
      obtain ⟨p, hp, rfl⟩ := List.mem_map.mp ha
      cases hl : d.lone? with
      | none => simp [hl] at hb
      | some l =>
        obtain rfl : b = l := by simpa [hl] using hb
        exact hu.fresh _ hl p hp

theorem foldlM {l : List TokenDecl} (h : Enrolls ds t)
    (hr : (l.foldlM (TokenDecl.declare k) t).reports = []) :
    Enrolls (ds ++ l.map (k, ·)) (l.foldlM (TokenDecl.declare k) t).value := by
  induction l generalizing ds t with
  | nil => simpa using h
  | cons d l ih =>
    rw [List.foldlM_cons, Noted.reports_bind, List.append_eq_nil_iff] at hr
    rw [List.foldlM_cons, Noted.value_bind, List.map_cons, List.append_cons]
    exact ih (h.append (TokenDecl.adds_declare hr.1)) hr.2

/-- A literal that is looked up is one of the literals, since these are all different. -/
theorem literal?_eq_some_iff (h : Enrolls ds t) {l : String} {s : SymbolId} :
    t.literal? l = some s ↔ (l, s) ∈ t.literals.toList := by
  rw [literal?, Option.map_eq_some_iff]
  constructor
  · rintro ⟨⟨m, s⟩, hfind, rfl⟩
    obtain rfl : m = l := by simpa using Array.find?_some hfind
    exact Array.mem_toList_iff.mpr (Array.mem_of_find?_eq_some hfind)
  · intro hmem
    cases hfind : t.literals.find? fun p => p.1 == l with
    | none =>
      have hnone := Array.find?_eq_none.mp hfind (l, s) (Array.mem_toList_iff.mp hmem)
      simp at hnone
    | some p =>
      have hp : p.1 = l := by simpa using Array.find?_some hfind
      have hpmem := Array.mem_toList_iff.mpr (Array.mem_of_find?_eq_some hfind)
      exact ⟨p, rfl, congrArg (·.2) (List.inj_on_of_nodup_map h.nodup hpmem hmem hp)⟩

end Enrolls

end Table

namespace Sections

variable {s : Sections}

/-- What is declared before the productions, with the kinds of symbols. -/
def declarations (s : Sections) : List (SymbolKind × TokenDecl) :=
  s.tokens.map (.terminal, ·) ++ s.pragmas.map (.pragma, ·)

theorem enrolls_front (h : s.declare.reports = []) : Enrolls s.declarations s.front := by
  rw [Definition.reports_sections, List.append_eq_nil_iff] at h
  simp only [declare, Noted.reports_bind, List.append_eq_nil_iff] at h
  obtain ⟨⟨-, htokens, hpragmas, -⟩, -⟩ := h
  have hset (t : Table) (d : SetDecl) :
      (d.declare t).value.symbols = t.symbols ∧ (d.declare t).value.literals = t.literals := by
    simp only [SetDecl.declare, Noted.value_bind, Noted.value_ite, Noted.value_pure, ite_self,
      addClass]
    split <;> exact ⟨rfl, rfl⟩
  have hsets : Enrolls [] (s.sets.foldlM SetDecl.declare empty).value := by
    rw [Noted.value_foldlM]
    exact List.foldlRecOn s.sets (fun t d => (d.declare t).value) (motive := Enrolls [])
      enrolls_empty fun t ht d _ => ht.of_same (hset t d).1 (hset t d).2
  exact ((hsets.foldlM htokens).foldlM hpragmas).of_same rfl rfl

end Sections

/-! ### The productions -/

namespace Table

variable {t u v : Table} {k : SymbolKind} {n : String} {line : Nat} {s : SymbolId}
  {f : Symbol → Symbol}

/-- The table `u` has the symbols of `t`, which are recognised as before, and the same literals. -/
structure Retains (t u : Table) : Prop where
  size_le : t.symbols.size ≤ u.symbols.size
  tokenKind : ∀ s < t.symbols.size, (u.symbol s).tokenKind = (t.symbol s).tokenKind
  literals : u.literals = t.literals

namespace Retains

theorem refl (t : Table) : Retains t t := ⟨le_rfl, fun _ _ => rfl, rfl⟩

theorem onGraph (h : Retains t u) (g : Graph) : Retains t { u with graph := g } := ⟨h.1, h.2, h.3⟩

theorem addSymbol (h : Retains t u) (k : SymbolKind) (n : String) (line : Nat) :
    Retains t (u.addSymbol k n line).1 := by
  obtain ⟨m, -, hsym⟩ := symbol_addSymbol u k n line
  refine ⟨h.size_le.trans (by simp), fun s hs => ?_, literals_addSymbol.trans h.literals⟩
  rw [hsym, if_neg (hs.trans_le h.size_le).ne]
  exact h.tokenKind s hs

theorem declare (h : Retains t u) (k : SymbolKind) (n : String) (line : Nat) :
    Retains t (u.declare k n line).value.1 := by
  unfold Table.declare
  split <;> exact h.addSymbol ..

theorem modifySymbol (h : Retains t u) (s : SymbolId) (hf : ∀ b, (f b).tokenKind = b.tokenKind) :
    Retains t (u.modifySymbol s f) where
  size_le := h.size_le.trans_eq size_modifySymbol.symm
  tokenKind r hr := (symbol_modifySymbol_congr (p := Symbol.tokenKind) hf s r).trans
    (h.tokenKind r hr)
  literals := h.literals

/-- What is new can be recognised in another way. -/
theorem modifySymbol_new (h : Retains t u) (hs : t.symbols.size ≤ s) :
    Retains t (u.modifySymbol s f) where
  size_le := h.size_le.trans_eq size_modifySymbol.symm
  tokenKind r hr := by
    rw [symbol_modifySymbol, if_neg fun hc => absurd hc.1 (hr.trans_le hs).ne']
    exact h.tokenKind r hr
  literals := h.literals

end Retains

end Table

namespace Atom

variable {t u : Table}

theorem retains_used (h : Retains t u) (name : Token) : Retains t (used u name).1 := by
  have hnew (k : SymbolKind) (n : String) (line : Nat) :
      (u.declare k n line).value.2 = u.symbols.size := by
    unfold Table.declare
    split <;> exact snd_addSymbol
  unfold used
  cases resolve? u name with
  | some s => exact h
  | none =>
    simp only [declareUse]
    split
    · exact h.declare ..
    · refine (h.declare ..).modifySymbol_new ?_
      rw [hnew]
      exact h.size_le

theorem retains_build (h : Retains t u) (a : Atom) : Retains t (a.build u).value.1 := by
  cases a with
  | symbol weak name attributes =>
    rw [build, value_buildSymbol]
    have hs := (retains_used h name).onGraph (spanned (used u name).1
      (nodeKind ((used u name).1.symbol (used u name).2).kind weak name (used u name).2).value
      name.line (attributes.map Token.attributesSpan)).1.graph
    dsimp only
    split
    · exact hs
    · exact hs.modifySymbol _ fun _ => rfl
  | _ => exact h.onGraph _

end Atom

theorem Production.retains_declare {t u : Table} (h : Retains t u) (p : Production) :
    Retains t (p.declare u).value := by
  have hname : Retains t (declareName u p.name).value.1.1 := by
    unfold declareName
    split
    · exact h.declare ..
    · simp only [Noted.value_bind, Noted.value_ite, Noted.value_pure, ite_self]
      exact h.modifySymbol _ fun _ => rfl
  have henter : Retains t (enter u p).1 := by
    have hset := hname.modifySymbol (declareName u p.name).value.1.2
      (f := fun s => { s with attributes := p.attributes.map Token.attributesSpan }) fun _ => rfl
    unfold enter
    dsimp only
    split
    · exact hset.modifySymbol _ fun _ => rfl
    · exact hset
  have hbody := Expr.kept_build (E := fun _ => True) (P := Retains t) (fun _ g hu => hu.onGraph g)
    (fun _ a _ hu _ => Atom.retains_build hu a) p.body p.body.all_true henter fun _ _ => trivial
  rw [value_declare]
  exact (hbody.modifySymbol (enter u p).2 (f := fun s =>
    { s with root := some (p.body.build Atom.build (enter u p).1).value.2.entry })
      fun _ => rfl).onGraph _

/-- Nothing behind the tokens and pragmas changes how these are recognised. -/
theorem Definition.retains_table (d : Definition) : Retains d.sections.front d.table.value := by
  have hproductions : Retains d.sections.front d.sections.declare.value := by
    change Retains _ (d.sections.productions.foldlM Production.declare d.sections.front).value
    rw [Noted.value_foldlM]
    exact List.foldlRecOn d.sections.productions (fun t p => (p.declare t).value)
      (motive := Retains d.sections.front) (.refl _) fun t ht p _ => p.retains_declare ht
  obtain ⟨s, hs⟩ := exists_setStart d.sections.declare.value d.name d.ending
  have hstart :
      Retains d.sections.front (setStart d.sections.declare.value d.name d.ending).value := by
    rw [hs]
    exact ⟨hproductions.1, hproductions.2, hproductions.3⟩
  have hinvalid := hstart.addSymbol .terminal invalidName 0
  have hnumber (l : List (SymbolId × Nat)) (n : Nat) {u : Table} (hu : Retains d.sections.front u) :
      Retains d.sections.front
        (l.foldl (fun u p => u.modifySymbol p.1 fun b => { b with index := n + p.2 }) u) := by
    induction l generalizing u with
    | nil => exact hu
    | cons p l ih => exact ih (hu.modifySymbol p.1 fun _ => rfl)
  exact hnumber _ _ ⟨hinvalid.1, hinvalid.2, hinvalid.3⟩

/-! ### Whole texts -/

namespace Table

/-- How a declared token with a structure is recognised: as the literal that the structure consists
of, parentheses aside, or as a class that has nothing to do with literals. -/
structure Recognises (t : Table) (s : SymbolId) (e : Expr TokenAtom) : Prop where
  literal : ∀ l, t.literal? l = some s ∧ (t.symbol s).tokenKind = .fixed ↔
    ∃ u, e.bare = .atom (.literal u) ∧ String.ofList u.spelling = l
  classes : (∀ u, e.bare ≠ .atom (.literal u)) →
    (t.symbol s).tokenKind = .classes ∧ ∀ l, (l, s) ∉ t.literals.toList
  content : ∀ u, e.content .nothing = .single u ↔ e.bare = .atom (.literal u)

end Table

/-- What is known of the declarations of a section as they are read. -/
theorem forall_readSection {δ : Type} {starts : Token.Kind → Bool} {decl : DeclReader δ}
    {P : δ → List Token → Prop} {k : Keyword} {ts rest : List Token} {ds : List δ}
    (hd : ReadsDecl decl starts P) (h : readSection k starts decl ts = .done ds rest) :
    ∀ d ∈ ds, ∃ us, P d us := by
  rcases hts : accept (.keyword k) ts with ⟨o, ts'⟩
  simp only [readSection, hts] at h
  cases o with
  | none =>
    cases h
    exact List.forall_mem_nil _
  | some t =>
    obtain ⟨parts, -, hparts⟩ := reads_readMany hd _ h
    intro d hmem
    obtain ⟨i, hi, rfl⟩ := List.mem_iff_getElem.mp hmem
    exact ⟨_, hparts.get hi (hparts.length_eq ▸ hi)⟩

namespace Definition

variable {source : String} {d : Definition}

theorem solid_readTokens {ts rest : List Token} (h : readTokens ts = .done d rest) :
    ∀ p ∈ d.sections.declarations, ∀ e ∈ p.2.body, e.Solid := by
  simp only [readTokens, Reading.andThen_eq_done, Reading.mapPart_eq_done, between_eq_done] at h
  obtain ⟨_, _, _, name, ts₂, _, sets, ts₃, _, tokens, ts₄, htokens, pragmas, ts₅, hpragmas, _, _,
    _, productions, ts₇, _, _, _, _, last, ts₉, _, _, _, _, h⟩ := h
  cases h
  have htokens := forall_readSection (TokenDecl.readsDecl_read _ _) htokens
  have hpragmas := forall_readSection (TokenDecl.readsDecl_read _ _) hpragmas
  intro p hp e he
  simp only [Sections.declarations, List.mem_append, List.mem_map] at hp
  rcases hp with ⟨decl, hdecl, rfl⟩ | ⟨decl, hdecl, rfl⟩
  · obtain ⟨-, hsolid⟩ := htokens decl hdecl
    exact hsolid e he
  · obtain ⟨-, hsolid⟩ := hpragmas decl hdecl
    exact hsolid e he

/-- The structures of tokens have no empty parts. -/
theorem solid_read (h : read source = .ok d) :
    ∀ p ∈ d.sections.declarations, ∀ e ∈ p.2.body, e.Solid := by
  unfold read at h
  dsimp only at h
  split at h
  · cases h
  · split at h
    · rename_i hr
      cases h
      exact solid_readTokens hr
    · cases h

/-- The declarations of a text without faults are enrolled in its table. -/
theorem enrolled_table (hd : Definition.read source = .ok d) (h : d.table.reports = []) :
    d.table.value.literals.toList = literalsOf (d.sections.tokens ++ d.sections.pragmas) ∧
    (∀ l s, d.table.value.literal? l = some s ↔ (l, s) ∈ d.table.value.literals.toList) ∧
    ∀ i p, d.sections.declarations[i]? = some p →
      (d.table.value.symbol (i + 1)).kind = p.1 ∧
      (d.table.value.symbol (i + 1)).name = p.2.name.text ∧
      (d.table.value.symbol (i + 1)).tokenKind = p.2.tokenKind := by
  obtain ⟨hsections, -⟩ := reports_table_eq_nil.mp h
  have hfront := Sections.enrolls_front hsections
  have hretains := d.retains_table
  obtain ⟨hcompares, hkeeps⟩ := compares_table hd
  have hkeeps := hcompares.keeps.trans hkeeps
  refine ⟨?_, fun l s => ?_, fun i p hp => ?_⟩
  · rw [hretains.literals, hfront.literals, Sections.declarations]
    simp [Function.comp_def]
  · rw [literal?, hretains.literals]
    exact hfront.literal?_eq_some_iff
  · have hlt : i + 1 < d.sections.front.symbols.size := by
      obtain ⟨hi, -⟩ := List.getElem?_eq_some_iff.mp hp
      rw [hfront.size]
      exact Nat.succ_lt_succ hi
    rw [hkeeps.kind _ hlt, hkeeps.name _ hlt, hretains.tokenKind _ hlt]
    exact ⟨hfront.kind i p hp, hfront.name i p hp, hfront.tokenKind i p hp⟩

end Definition

/-- A declaration with a structure is recognised as the structure tells. -/
theorem Table.Recognises.of_declared {t : Table} {i : Nat} {d : TokenDecl} {e : Expr TokenAtom}
    {ds : List TokenDecl} (hl : t.literals.toList = literalsOf ds)
    (hlookup : ∀ l s, t.literal? l = some s ↔ (l, s) ∈ t.literals.toList)
    (hd : ds[i]? = some d) (he : d.body = some e) (hsolid : e.Solid)
    (hk : (t.symbol (i + 1)).tokenKind = d.tokenKind) : t.Recognises (i + 1) e := by
  have hmem (l : String) : (l, i + 1) ∈ t.literals.toList ↔
      ∃ u, e.bare = .atom (.literal u) ∧ String.ofList u.spelling = l := by
    rw [hl, mem_literalsOf hd, TokenDecl.lone?, he, Option.bind_some, Option.map_eq_some_iff]
    simp only [Expr.literal?_eq_some_iff]
  rw [TokenDecl.tokenKind, he] at hk
  refine ⟨fun l => ?_, fun hnone => ?_, fun u => ?_⟩
  · rw [hlookup, hmem]
    refine ⟨And.left, fun h => ⟨h, ?_⟩⟩
    obtain ⟨u, hu, -⟩ := h
    rw [hk]
    exact if_pos (by rw [Expr.literal?_eq_some_iff.mpr hu]; rfl)
  · refine ⟨?_, fun l hl => ?_⟩
    · have hlit : e.literal? = none :=
        Option.eq_none_iff_forall_ne_some.mpr fun u hu => hnone u (Expr.literal?_eq_some_iff.mp hu)
      rw [hk]
      exact if_neg (by rw [hlit]; exact Bool.false_ne_true)
    · obtain ⟨u, hu, -⟩ := (hmem l).mp hl
      exact hnone u hu
  · rw [Expr.content_nothing hsolid, ← Expr.literal?_eq_some_iff]
    cases e.literal? <;> simp

namespace Grammar

variable {source : String} {cfg : Config} {log : Log} {g : Grammar}

/-- If a text is read without an error, the literals are those of the declarations that consist of
one literal, and each declaration with a structure is recognised as the structure tells. -/
theorem recognises_declared (hg : (Grammar.parse source cfg log).2 = .ok g)
    (hlog : (Grammar.parse source cfg log).1.errorCount = log.errorCount) : ∃ d,
    Definition.read source = .ok d ∧
    g.table.literals.toList = literalsOf (d.sections.tokens ++ d.sections.pragmas) ∧
    ∀ i k decl, d.sections.declarations[i]? = some (k, decl) →
      (g.table.symbol (i + 1)).kind = k ∧ (g.table.symbol (i + 1)).name = decl.name.text ∧
        ∀ e, decl.body = some e → g.table.Recognises (i + 1) e := by
  obtain ⟨d, hd, rfl⟩ := exists_read hg
  obtain ⟨hliterals, hlookup, hdeclared⟩ :=
    Definition.enrolled_table hd (reports_of_errorCount_eq hd hlog)
  refine ⟨d, hd, hliterals, fun i k decl hi => ?_⟩
  obtain ⟨hkind, hname, htokenKind⟩ := hdeclared i _ hi
  refine ⟨hkind, hname, fun e he => ?_⟩
  have hget : (d.sections.tokens ++ d.sections.pragmas)[i]? = some decl := by
    have hmap : d.sections.tokens ++ d.sections.pragmas =
        d.sections.declarations.map (·.2) := by
      simp [Sections.declarations, Function.comp_def]
    rw [hmap, List.getElem?_map, hi]
    rfl
  have hsolid := Definition.solid_read hd _ (List.mem_of_getElem? hi) e he
  exact .of_declared hliterals hlookup hget he hsolid htokenKind

/-- A token that is one literal in parentheses, and one that is two literals. -/
def signs : String :=
  "COMPILER S\nTOKENS\nplus = ('+').\narrow = '-' '>'.\nPRODUCTIONS\nS = plus arrow.\nEND S."

set_option maxRecDepth 100000 in
theorem read_signs : ∃ d, Definition.read signs = .ok d ∧
    decide (literalsOf (d.sections.tokens ++ d.sections.pragmas) = [("\"+\"", 1)]) :=
  exists_ok_of_any (by decide +kernel)

set_option maxRecDepth 100000 in
theorem parse_signs : (∃ g, (Grammar.parse signs default {}).2 = .ok g ∧ true) ∧
    (Grammar.parse signs default {}).1.errorCount = Log.errorCount {} :=
  ⟨exists_ok_of_any (by decide +kernel), by decide +kernel⟩

theorem recognises_signs : ∃ g, (Grammar.parse signs default {}).2 = .ok g ∧
    (Grammar.parse signs default {}).1.errorCount = Log.errorCount {} ∧
    g.table.literals.toList = [("\"+\"", 1)] := by
  obtain ⟨⟨g, hg, -⟩, hlog⟩ := parse_signs
  obtain ⟨d, hd, hliterals, -⟩ := recognises_declared hg hlog
  obtain ⟨d', hd', hlone⟩ := read_signs
  obtain rfl := Except.ok.inj (hd.symm.trans hd')
  exact ⟨g, hg, hlog, hliterals.trans (of_decide_eq_true hlone)⟩

end Grammar

end Lookahead
