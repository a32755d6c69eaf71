import Lookahead.Definition.Table
import Mathlib.Data.Finset.Card

/-!
# The symbols of a table

`Table.Registered` says that the lists of a table hold its symbols by kind, each but the pragmas
numbered by its place. The declarations of a definition keep that, and they only ever add symbols
(`Table.Continues`): so do character sets (`SetDecl.continues_declare`), tokens and pragmas
(`TokenDecl.continues_declare`), and graphs whose atoms do (`Expr.continues_build`).
-/

namespace Lookahead

namespace Table

/-- The list that a symbol of some kind is entered in. -/
def listed (t : Table) : SymbolKind → Array SymbolId
  | .terminal => t.terminals
  | .pragma => t.pragmas
  | .nonterminal => t.nonterminals

structure Registered (t : Table) : Prop where
  mem : ∀ k s, s ∈ t.listed k ↔ s < t.symbols.size ∧ (t.symbol s).kind = k
  index : ∀ k, k ≠ .pragma → ∀ n s, (t.listed k)[n]? = some s → (t.symbol s).index = n
  literal : ∀ p ∈ t.literals, p.2 < t.symbols.size
  eof : t.eof ∈ t.terminals
  start : ∀ a ∈ t.start, a ∈ t.nonterminals

/-- The table `u` has the symbols of `t`, possibly with others behind them, and the same
productions and deletable symbols. -/
structure Grows (t u : Table) : Prop where
  size_le : t.symbols.size ≤ u.symbols.size
  kind : ∀ s < t.symbols.size, (u.symbol s).kind = (t.symbol s).kind
  root : ∀ s, (u.symbol s).root = (t.symbol s).root
  deletable : ∀ s, (u.symbol s).deletable = (t.symbol s).deletable

/-- What `Registered` and `Grows` look at in a table. -/
structure SameSymbols (t u : Table) : Prop where
  symbols : u.symbols = t.symbols
  listed : u.listed = t.listed
  literals : u.literals = t.literals
  start : u.start = t.start
  eof : u.eof = t.eof

variable {t u v : Table} {k : SymbolKind} {name : String} {line : Nat} {s : SymbolId}
  {f : Symbol → Symbol}

theorem SameSymbols.symbol (h : SameSymbols t u) : u.symbol = t.symbol := by
  funext s
  rw [Table.symbol, h.symbols, Table.symbol]

section

variable (ht : Registered t) (hk : k ≠ .pragma)
include ht hk

theorem Registered.index_lt_size (hs : s ∈ t.listed k) :
    (t.symbol s).index < (t.listed k).size := by
  obtain ⟨n, hn, rfl⟩ := Array.mem_iff_getElem.mp hs
  rwa [ht.index k hk n _ (Array.getElem?_eq_getElem hn)]

theorem Registered.index_inj {r : SymbolId} (hs : s ∈ t.listed k) (hr : r ∈ t.listed k)
    (h : (t.symbol s).index = (t.symbol r).index) : s = r := by
  obtain ⟨m, hm, rfl⟩ := Array.mem_iff_getElem.mp hs
  obtain ⟨n, hn, rfl⟩ := Array.mem_iff_getElem.mp hr
  rw [ht.index k hk m _ (Array.getElem?_eq_getElem hm),
    ht.index k hk n _ (Array.getElem?_eq_getElem hn)] at h
  subst h
  rfl

theorem Registered.exists_index {n : Nat} (hn : n < (t.listed k).size) :
    ∃ s ∈ t.listed k, (t.symbol s).index = n :=
  ⟨(t.listed k)[n], Array.getElem_mem _, ht.index k hk n _ (Array.getElem?_eq_getElem hn)⟩

theorem Registered.nodup_listed : (t.listed k).toList.Nodup := by
  refine List.nodup_iff_injective_getElem.mpr fun m n h => ?_
  have hm := ht.index k hk m _ (Array.getElem?_eq_getElem m.2)
  have hn := ht.index k hk n _ (Array.getElem?_eq_getElem n.2)
  simp only [Array.getElem_toList] at h
  rw [h] at hm
  exact Fin.ext (hm.symm.trans hn)

end

theorem Registered.of_same (ht : Registered t) (h : SameSymbols t u) : Registered u where
  mem k s := by
    rw [h.listed, h.symbols, h.symbol]
    exact ht.mem k s
  index k hk n s := by
    rw [h.listed, h.symbol]
    exact ht.index k hk n s
  literal := by
    rw [h.literals, h.symbols]
    exact ht.literal
  eof := by
    have := congrFun h.listed .terminal
    simp only [Table.listed] at this
    rw [h.eof, this]
    exact ht.eof
  start := by
    have := congrFun h.listed .nonterminal
    simp only [Table.listed] at this
    rw [h.start, this]
    exact ht.start

theorem Grows.of_same (h : SameSymbols t u) : Grows t u where
  size_le := by rw [h.symbols]
  kind s _ := by rw [h.symbol]
  root s := by rw [h.symbol]
  deletable s := by rw [h.symbol]

theorem Grows.refl (t : Table) : Grows t t := ⟨le_rfl, fun _ _ => rfl, fun _ => rfl, fun _ => rfl⟩

theorem Grows.trans (h : Grows t u) (h' : Grows u v) : Grows t v where
  size_le := h.size_le.trans h'.size_le
  kind s hs := by rw [h'.kind s (hs.trans_le h.size_le), h.kind s hs]
  root s := by rw [h'.root, h.root]
  deletable s := by rw [h'.deletable, h.deletable]

/-! ### Adding symbols -/

theorem symbol_of_size_le (h : t.symbols.size ≤ s) : t.symbol s = default := by
  rw [Table.symbol, Array.getD_eq_getD_getElem?, Array.getElem?_eq_none h]
  rfl

@[simp] theorem snd_addSymbol : (t.addSymbol k name line).2 = t.symbols.size := by
  cases k <;> rfl

@[simp] theorem size_addSymbol :
    (t.addSymbol k name line).1.symbols.size = t.symbols.size + 1 := by
  cases k <;> simp [addSymbol]

theorem symbol_addSymbol (t : Table) (k : SymbolKind) (name : String) (line : Nat) :
    ∃ n, (k ≠ .pragma → n = (t.listed k).size) ∧
    ∀ s, (t.addSymbol k name line).1.symbol s =
      if s = t.symbols.size then { kind := k, index := n, name := name, line := line }
      else t.symbol s := by
  cases k <;> simp only [addSymbol, Table.symbol, Array.getD_eq_getD_getElem?,
    Array.getElem?_push, listed]
  · refine ⟨t.terminals.size, fun _ => rfl, fun s => ?_⟩
    split <;> rfl
  · refine ⟨0, fun h => absurd rfl h, fun s => ?_⟩
    split <;> rfl
  · refine ⟨t.nonterminals.size, fun _ => rfl, fun s => ?_⟩
    split <;> rfl

theorem listed_addSymbol (l : SymbolKind) : (t.addSymbol k name line).1.listed l =
    if k = l then (t.listed l).push t.symbols.size else t.listed l := by
  cases k <;> cases l <;> rfl

theorem literals_addSymbol : (t.addSymbol k name line).1.literals = t.literals := by
  cases k <;> rfl

theorem eof_addSymbol : (t.addSymbol k name line).1.eof = t.eof := by
  cases k <;> rfl

theorem start_addSymbol : (t.addSymbol k name line).1.start = t.start := by
  cases k <;> rfl

theorem graph_addSymbol : (t.addSymbol k name line).1.graph = t.graph := by
  cases k <;> rfl

theorem mem_listed_addSymbol {l : SymbolKind} (hs : s ∈ t.listed l) :
    s ∈ (t.addSymbol k name line).1.listed l := by
  rw [listed_addSymbol]
  split
  · exact Array.mem_push_of_mem _ hs
  · exact hs

theorem Grows.addSymbol (t : Table) (k : SymbolKind) (name : String) (line : Nat) :
    Grows t (t.addSymbol k name line).1 := by
  obtain ⟨n, -, hsym⟩ := symbol_addSymbol t k name line
  refine ⟨by simp, fun s hs => ?_, fun s => ?_, fun s => ?_⟩
  · rw [hsym, if_neg (Nat.ne_of_lt hs)]
  all_goals
    rw [hsym]
    split
    · rename_i h
      rw [symbol_of_size_le (Nat.le_of_eq h.symm)]
      rfl
    · rfl

theorem Registered.addSymbol (ht : Registered t) :
    Registered (t.addSymbol k name line).1 := by
  obtain ⟨n, hn, hsym⟩ := symbol_addSymbol t k name line
  refine ⟨fun l s => ?_, fun l hl m s hs => ?_, ?_, ?_, ?_⟩
  · rw [listed_addSymbol, size_addSymbol, hsym]
    have hm := ht.mem l s
    by_cases hs : s = t.symbols.size
    · subst hs
      have : t.symbols.size ∉ t.listed l := fun h => absurd (hm.mp h).1 (lt_irrefl _)
      by_cases hkl : k = l <;> simp [hkl, this]
    · have : s < t.symbols.size + 1 ↔ s < t.symbols.size := by grind
      rw [if_neg hs, this, ← hm]
      split <;> simp [hs]
  · rw [listed_addSymbol] at hs
    by_cases hkl : k = l
    · subst hkl
      rw [if_pos rfl, Array.getElem?_push] at hs
      split at hs
      · rename_i hm
        cases hs
        rw [hsym, if_pos rfl, hm]
        exact hn hl
      · have := (ht.mem k s).mp (Array.mem_of_getElem? hs)
        rw [hsym, if_neg (Nat.ne_of_lt this.1)]
        exact ht.index k hl m s hs
    · rw [if_neg hkl] at hs
      have := (ht.mem l s).mp (Array.mem_of_getElem? hs)
      rw [hsym, if_neg (Nat.ne_of_lt this.1)]
      exact ht.index l hl m s hs
  · rw [literals_addSymbol, size_addSymbol]
    exact fun p hp => Nat.lt_succ_of_lt (ht.literal p hp)
  · rw [eof_addSymbol]
    exact mem_listed_addSymbol (l := .terminal) ht.eof
  · rw [start_addSymbol]
    exact fun a ha => mem_listed_addSymbol (l := .nonterminal) (ht.start a ha)

/-! ### Changing symbols -/

theorem symbol_modifySymbol (t : Table) (a : SymbolId) (f : Symbol → Symbol) (s : SymbolId) :
    (t.modifySymbol a f).symbol s =
      if a = s ∧ s < t.symbols.size then f (t.symbol s) else t.symbol s := by
  simp only [modifySymbol, Table.symbol, Array.getD_eq_getD_getElem?, Array.getElem?_modify]
  by_cases hs : s < t.symbols.size <;> by_cases ha : a = s <;> simp [hs, ha]

@[simp] theorem size_modifySymbol : (t.modifySymbol s f).symbols.size = t.symbols.size := by
  simp [modifySymbol]

@[simp] theorem listed_modifySymbol : (t.modifySymbol s f).listed = t.listed := by
  funext k
  cases k <;> rfl

/-- A change of symbols that keeps what `p` reads from them. -/
theorem symbol_modifySymbol_congr {α : Type} {p : Symbol → α} (hf : ∀ b, p (f b) = p b)
    (s c : SymbolId) : p ((t.modifySymbol s f).symbol c) = p (t.symbol c) := by
  rw [symbol_modifySymbol]
  split
  · exact hf _
  · rfl

/-- One change of all symbols of a list. -/
theorem symbol_foldl_modifySymbol (hf : ∀ b, f (f b) = f b) (l : List SymbolId) (t : Table)
    (s : SymbolId) : (l.foldl (fun u a => u.modifySymbol a f) t).symbol s =
      if s ∈ l ∧ s < t.symbols.size then f (t.symbol s) else t.symbol s := by
  induction l generalizing t with
  | nil => simp
  | cons a l ih =>
    rw [List.foldl_cons, ih, size_modifySymbol, symbol_modifySymbol]
    by_cases has : a = s
    · subst has
      by_cases hs : a < t.symbols.size <;> by_cases hl : a ∈ l <;> simp [hs, hl, hf]
    · have hsa : s ≠ a := Ne.symm has
      simp [has, hsa]

theorem Registered.modifySymbol (ht : Registered t) (s : SymbolId)
    (hk : ∀ b, (f b).kind = b.kind)
    (hi : (t.symbol s).kind ≠ .pragma → (f (t.symbol s)).index = (t.symbol s).index) :
    Registered (t.modifySymbol s f) where
  mem k c := by
    rw [listed_modifySymbol, size_modifySymbol, symbol_modifySymbol_congr hk]
    exact ht.mem k c
  index k hkp n c hc := by
    rw [listed_modifySymbol] at hc
    have hkc := ((ht.mem k c).mp (Array.mem_of_getElem? hc)).2
    rw [symbol_modifySymbol]
    split
    · rename_i hsc
      rw [hsc.1] at hi
      rw [hi (hkc ▸ hkp)]
      exact ht.index k hkp n c hc
    · exact ht.index k hkp n c hc
  literal := by
    rw [size_modifySymbol]
    exact ht.literal
  eof := ht.eof
  start := ht.start

theorem Grows.modifySymbol (t : Table) (s : SymbolId) (hk : ∀ b, (f b).kind = b.kind)
    (hr : ∀ b, (f b).root = b.root) (hd : ∀ b, (f b).deletable = b.deletable) :
    Grows t (t.modifySymbol s f) where
  size_le := by simp
  kind c _ := symbol_modifySymbol_congr (p := Symbol.kind) hk s c
  root c := symbol_modifySymbol_congr (p := Symbol.root) hr s c
  deletable c := symbol_modifySymbol_congr (p := Symbol.deletable) hd s c

/-! ### What the declarations of a definition do -/

/-- The table `u` comes from `t` by adding symbols and by changes that neither list shows. -/
structure Continues (t u : Table) : Prop where
  registered : Registered t → Registered u
  grows : Grows t u

theorem Continues.refl (t : Table) : Continues t t := ⟨id, .refl t⟩

theorem Continues.trans (h : Continues t u) (h' : Continues u v) : Continues t v :=
  ⟨h'.registered ∘ h.registered, h.grows.trans h'.grows⟩

theorem Continues.of_same (h : SameSymbols t u) : Continues t u :=
  ⟨(·.of_same h), .of_same h⟩

theorem Continues.onGraph (t : Table) (g : Graph) : Continues t { t with graph := g } :=
  .of_same ⟨rfl, rfl, rfl, rfl, rfl⟩

theorem Continues.addSymbol (t : Table) (k : SymbolKind) (name : String) (line : Nat) :
    Continues t (t.addSymbol k name line).1 :=
  ⟨Registered.addSymbol, .addSymbol t k name line⟩

/-- Names, lines, attributes and the like do not matter. -/
theorem Continues.modifySymbol (t : Table) (s : SymbolId)
    (hf : ∀ b, (f b).kind = b.kind ∧ (f b).index = b.index ∧ (f b).root = b.root ∧
      (f b).deletable = b.deletable) : Continues t (t.modifySymbol s f) :=
  ⟨fun ht => ht.modifySymbol s (fun b => (hf b).1) fun _ => (hf _).2.1,
    .modifySymbol t s (fun b => (hf b).1) (fun b => (hf b).2.2.1) fun b => (hf b).2.2.2⟩

theorem Continues.addLiteral (t : Table) (spelling : String) (hs : s < t.symbols.size) :
    Continues t (t.addLiteral spelling s) := by
  refine ⟨fun ht => ?_, ?_⟩
  · unfold Table.addLiteral
    split
    · refine ⟨ht.mem, ht.index, fun p hp => ?_, ht.eof, ht.start⟩
      rcases Array.mem_or_eq_of_mem_setIfInBounds hp with hp | rfl
      · exact ht.literal p hp
      · exact hs
    · refine ⟨ht.mem, ht.index, fun p hp => ?_, ht.eof, ht.start⟩
      rcases Array.mem_push.mp hp with hp | rfl
      · exact ht.literal p hp
      · exact hs
  · unfold Table.addLiteral
    split <;> exact ⟨le_rfl, fun _ _ => rfl, fun _ => rfl, fun _ => rfl⟩

theorem Continues.addClass (t : Table) (name : String) (set : CharSet) :
    Continues t (t.addClass name set).1 := by
  unfold Table.addClass
  split <;> exact .of_same ⟨rfl, rfl, rfl, rfl, rfl⟩

theorem Continues.declare (t : Table) (k : SymbolKind) (name : String) (line : Nat) :
    Continues t (t.declare k name line).value.1 := by
  unfold Table.declare
  split <;> exact .addSymbol ..

theorem snd_declare_lt (t : Table) (k : SymbolKind) (name : String) (line : Nat) :
    (t.declare k name line).value.2 < (t.declare k name line).value.1.symbols.size := by
  unfold Table.declare
  split <;> simp

/-- What is found under a name is a symbol. -/
theorem Registered.lt_of_find (ht : Registered t) (hs : t.find? name = some s) :
    s < t.symbols.size := by
  have := List.mem_of_find?_eq_some hs
  simp only [List.mem_append, Array.mem_toList_iff] at this
  rcases this with h | h
  · exact ((ht.mem .terminal s).mp h).1
  · exact ((ht.mem .nonterminal s).mp h).1

theorem Registered.lt_of_literal (ht : Registered t) (hs : t.literal? name = some s) :
    s < t.symbols.size := by
  simp only [literal?, Option.map_eq_some_iff] at hs
  obtain ⟨p, hp, rfl⟩ := hs
  exact ht.literal p (Array.mem_of_find?_eq_some hp)

theorem continues_foldlM {α : Type} {step : Table → α → Noted Table}
    (hstep : ∀ t a, Registered t → Continues t (step t a).value) (l : List α)
    (ht : Registered t) : Continues t (l.foldlM step t).value := by
  rw [Noted.value_foldlM]
  induction l generalizing t with
  | nil => exact .refl t
  | cons a l ih =>
    have h := hstep t a ht
    exact h.trans (ih (h.registered ht))

theorem registered_empty : Registered empty where
  mem k s := by cases k <;> simp [empty, addSymbol, listed, Table.symbol] <;> grind
  index k hk n s := by
    cases k
    · rcases n with _ | n
      · rintro ⟨⟩
        rfl
      · simp [empty, addSymbol, listed]
    · exact absurd rfl hk
    · simp [empty, addSymbol, listed]
  literal := by simp [empty, addSymbol]
  eof := by simp [empty, addSymbol]
  start := by simp [empty, addSymbol]

theorem grows_empty : Grows {} empty := .addSymbol ..

end Table

namespace Expr

open Table

variable {α : Type} {atoms : Table → α → Noted (Table × Piece)}

theorem continues_wrap (t : Table) (p : Piece) (b : Bracket) : Continues t (wrap t p b).1 := by
  cases b
  · exact .refl t
  all_goals exact .onGraph t _

/-- Building graphs adds no symbols but those that the atoms add. -/
theorem continues_build (ha : ∀ t a, Registered t → Continues t (atoms t a).value.1) (e : Expr α)
    {t : Table} (ht : Registered t) : Continues t (e.build atoms t).value.1 := by
  induction e generalizing t with
  | empty => exact .onGraph t _
  | atom a => exact ha t a ht
  | seq e f ihe ihf =>
    have he := ihe ht
    have hf := ihf (he.registered ht)
    exact (he.trans hf).trans (.onGraph _ _)
  | alt e f ihe ihf =>
    have he := ihe ht
    have hf := ihf (he.registered ht)
    refine (he.trans hf).trans ?_
    simp only [build, Noted.value_bind, Noted.value_pure]
    split
    · exact .onGraph _ _
    · exact (Continues.onGraph _ _).trans (.onGraph _ _)
  | group b e ih => exact (ih ht).trans (continues_wrap _ _ b)

end Expr

namespace TokenAtom

open Table

theorem continues_build (t : Table) (a : TokenAtom) :
    Continues t (TokenAtom.build t a).value.1 := by
  cases a with
  | className n =>
    simp only [TokenAtom.build]
    split
    · exact .onGraph _ _
    · exact (Continues.addClass _ _ _).trans (.onGraph _ _)
  | literal l =>
    simp only [TokenAtom.build, addLiteralChars, onPiece, Noted.value_bind, Noted.value_ite,
      Noted.value_pure, ite_self]
    exact .onGraph _ _

end TokenAtom

namespace TokenDecl

open Table

theorem continues_declareName (k : SymbolKind) {t : Table} (ht : Registered t) (name : Token) :
    Continues t (declareName k t name).value.1 ∧
      (declareName k t name).value.2 < (declareName k t name).value.1.symbols.size := by
  unfold declareName
  split
  · rename_i s hs
    exact ⟨.refl t, ht.lt_of_find hs⟩
  · exact ⟨.declare .., snd_declare_lt ..⟩

theorem continues_setBody {t : Table} (ht : Registered t) {s : SymbolId} (hs : s < t.symbols.size)
    (name : Token) (e : Expr TokenAtom) : Continues t (setBody t s name e).value := by
  have hb := Expr.continues_build (fun t a _ => TokenAtom.continues_build t a) e ht
  unfold setBody
  rcases hr : (e.build TokenAtom.build t).value with ⟨u, p⟩
  rw [hr] at hb
  simp only [Noted.value_bind, hr, Noted.value_ite, ite_self]
  refine hb.trans ((Continues.onGraph u (u.graph.finish p)).trans ?_)
  split
  · simp only [Noted.value_bind, Noted.value_ite, Noted.value_pure, ite_self]
    exact .addLiteral _ _ (hs.trans_le hb.grows.size_le)
  · exact .modifySymbol _ _ fun _ => ⟨rfl, rfl, rfl, rfl⟩

theorem continues_declare (k : SymbolKind) {t : Table} (ht : Registered t) (d : TokenDecl) :
    Continues t (d.declare k t).value := by
  obtain ⟨hn, hlt⟩ := continues_declareName k ht d.name
  unfold declare
  rcases hr : (declareName k t d.name).value with ⟨u, s⟩
  rw [hr] at hn hlt
  have hact (v : Table) (a : Token) : Continues v (setAction k v s a).value := by
    simp only [setAction, Noted.value_bind, Noted.value_ite, Noted.value_pure, ite_self]
    exact .modifySymbol _ _ fun _ => ⟨rfl, rfl, rfl, rfl⟩
  simp only [Noted.value_bind, hr]
  cases d.body with
  | some e =>
    have hbody := hn.trans (continues_setBody (hn.registered ht) hlt d.name e)
    cases d.action with
    | some a => exact hbody.trans (hact _ a)
    | none => exact hbody
  | none =>
    have hbody : Continues u (if d.name.kind = .string then
        u.modifySymbol s fun s => { s with tokenKind := .literal } else u) := by
      split
      · exact .modifySymbol _ _ fun _ => ⟨rfl, rfl, rfl, rfl⟩
      · exact .refl u
    cases d.action with
    | some a => exact (hn.trans hbody).trans (hact _ a)
    | none => exact hn.trans hbody

end TokenDecl

theorem SetDecl.continues_declare (t : Table) (d : SetDecl) :
    Table.Continues t (d.declare t).value := by
  unfold SetDecl.declare
  simp only [Noted.value_bind, Noted.value_ite, Noted.value_pure, ite_self]
  exact .addClass ..

end Lookahead
