import Mathlib
import Lookahead.Proofs.Unique
import Lookahead.Proofs.Words

/-!
# Classes and their values

What can be observed of two sets depends on their values alone (`History.observers`): whether they
are the same, whether one includes or meets the other, how many values there are and which is the
least. So a class is found by a set if and only if a class with those values is there, and then it
is the first one. The sets of a parsed grammar's classes all have a history
(`Grammar.storied_parse`).
-/

namespace Lookahead

namespace CharSet

/-- The words that the set contains. -/
def members (s : CharSet) : Set UInt32 := {c | s.contains c.toNat = true}

/-- The set has come about by operations on sets. -/
def Storied (s : CharSet) : Prop := ∃ h : History, h.set = s

end CharSet

namespace History

open CharSet

theorem members_set (h : History) : h.set.members = h.values :=
  Set.ext h.contains_set

/-- A set only contains words. -/
theorem exists_word {h : History} {n : Nat} (hn : h.set.contains n = true) :
    ∃ c ∈ h.set.members, c.toNat = n := by
  obtain ⟨r, hr, hlo, hhi⟩ := contains_iff.mp hn
  obtain ⟨ws, -, hs⟩ := h.exists_stores
  rw [← hs.ranges] at hr
  obtain ⟨w, -, rfl⟩ := List.mem_map.mp hr
  have hlt : n < UInt32.size := hhi.trans_lt (Word.toNat_lt_size w.hi)
  have htoNat : (UInt32.ofNat n).toNat = n := UInt32.toNat_ofNat_of_lt hlt
  refine ⟨UInt32.ofNat n, ?_, htoNat⟩
  rw [members, Set.mem_ofPred_eq, htoNat]
  exact hn

variable (h g : History)

theorem image_members : UInt32.toNat '' h.set.members = {n | h.set.contains n = true} := by
  refine Set.ext fun n => ⟨?_, fun hn => exists_word hn⟩
  rintro ⟨c, hc, rfl⟩
  exact hc

theorem set_eq_iff : h.set = g.set ↔ h.set.members = g.set.members := by
  refine ⟨congrArg members, fun he => h.canonical_set.ext g.canonical_set fun n => ?_⟩
  have himage : n ∈ UInt32.toNat '' h.set.members ↔ n ∈ UInt32.toNat '' g.set.members := by
    rw [he]
  rw [image_members, image_members] at himage
  exact Bool.eq_iff_iff.mpr himage

theorem includes_iff : h.set.includes g.set = true ↔ g.set.members ⊆ h.set.members := by
  rw [h.canonical_set.includes_iff g.canonical_set.ordered]
  refine ⟨fun hall c => hall c.toNat, fun hsub n hn => ?_⟩
  obtain ⟨c, hc, rfl⟩ := exists_word hn
  exact hsub hc

theorem intersects_iff :
    h.set.intersects g.set = true ↔ (h.set.members ∩ g.set.members).Nonempty := by
  rw [h.canonical_set.ordered.intersects_iff g.canonical_set.ordered]
  constructor
  · rintro ⟨n, hn, hn'⟩
    obtain ⟨c, hc, rfl⟩ := exists_word hn
    exact ⟨c, hc, hn'⟩
  · rintro ⟨c, hc, hc'⟩
    exact ⟨c.toNat, hc, hc'⟩

theorem count_eq : h.set.count = h.set.members.ncard := by
  have hvalues : UInt32.toNat '' h.set.members = (h.set.values.toFinset : Set Nat) := by
    rw [image_members]
    refine Set.ext fun n => ?_
    rw [Finset.mem_coe, List.mem_toFinset, h.canonical_set.ordered.mem_values]
    exact Iff.rfl
  rw [← Set.ncard_image_of_injective _ fun _ _ => UInt32.toNat_inj.mp, hvalues,
    Set.ncard_coe_finset, List.toFinset_card_of_nodup h.canonical_set.nodup_values, length_values]

theorem min?_eq_none_iff : h.set.min? = none ↔ h.set.members = ∅ := by
  rw [h.canonical_set.ordered.min?_eq_none_iff, Set.eq_empty_iff_forall_notMem]
  refine ⟨fun hall c hc => by simp [members, hall] at hc, fun hall n => ?_⟩
  by_contra hn
  obtain ⟨c, hc, -⟩ := exists_word (Bool.not_eq_false _ ▸ hn)
  exact hall c hc

theorem min?_eq_some_iff (m : Nat) :
    h.set.min? = some m ↔ IsLeast (UInt32.toNat '' h.set.members) m := by
  have hleast {n : Nat} (hn : h.set.min? = some n) : IsLeast (UInt32.toNat '' h.set.members) n := by
    rw [image_members]
    exact h.canonical_set.isLeast_of_min?_eq hn
  refine ⟨hleast, fun hm => ?_⟩
  cases hmin : h.set.min? with
  | none =>
    obtain ⟨c, hc, -⟩ := hm.1
    rw [(min?_eq_none_iff h).mp hmin] at hc
    exact absurd hc (Set.notMem_empty c)
  | some n => exact congrArg some ((hleast hmin).unique hm)

end History

/-! ### Classes of a table -/

namespace Table

/-- Every class has a set that has come about by operations on sets. -/
def Storied (t : Table) : Prop := ∀ k ∈ t.classes, k.set.Storied

variable {t u : Table} {i : ClassId}

theorem Storied.charClass (ht : t.Storied) (hi : i < t.classes.size) :
    (t.charClass i).set.Storied := by
  rw [Table.charClass, Array.getD_eq_getD_getElem?, Array.getElem?_eq_getElem hi]
  exact ht _ (Array.getElem_mem hi)

theorem Storied.classBySet?_eq_some_iff (ht : t.Storied) (h : History) :
    t.classBySet? h.set = some i ↔ i < t.classes.size ∧
      (t.charClass i).set.members = h.set.members ∧
      ∀ j < i, (t.charClass j).set.members ≠ h.set.members := by
  have hclass {j : ClassId} (hj : j < t.classes.size) : ((t.classes[j].set == h.set) = true ↔
      (t.charClass j).set.members = h.set.members) := by
    have he : t.classes[j].set = (t.charClass j).set := by
      rw [Table.charClass, Array.getD_eq_getD_getElem?, Array.getElem?_eq_getElem hj]
      rfl
    obtain ⟨g, hg⟩ := ht.charClass hj
    rw [beq_iff_eq, he, ← hg, History.set_eq_iff]
  rw [classBySet?, Array.findIdx?_eq_some_iff_getElem]
  constructor
  · rintro ⟨hi, hset, hfirst⟩
    refine ⟨hi, (hclass hi).mp hset, fun j hj he => ?_⟩
    exact hfirst j hj ((hclass (hj.trans hi)).mpr he)
  · rintro ⟨hi, hset, hfirst⟩
    exact ⟨hi, (hclass hi).mpr hset, fun j hj he => hfirst j hj ((hclass (hj.trans hi)).mp he)⟩

theorem Storied.classBySet?_eq_none_iff (ht : t.Storied) (h : History) :
    t.classBySet? h.set = none ↔ ∀ k ∈ t.classes, k.set.members ≠ h.set.members := by
  rw [classBySet?, Array.findIdx?_eq_none_iff]
  refine forall₂_congr fun k hk => ?_
  obtain ⟨g, hg⟩ := ht k hk
  rw [beq_eq_false_iff_ne, Ne, ← hg, History.set_eq_iff]

end Table

/-! ### Classes of a grammar -/

namespace CharSet

theorem storied_empty : Storied .empty := ⟨.empty, rfl⟩

theorem storied_ofList (cs : List Char) : Storied (.ofList (cs.map Char.toNat)) :=
  ⟨.ofList (cs.map Char.val), by rw [History.set, List.map_map]; rfl⟩

theorem Storied.union {s t : CharSet} : s.Storied → t.Storied → (s.union t).Storied
  | ⟨h, hh⟩, ⟨g, hg⟩ => ⟨.union h g, by rw [History.set, hh, hg]⟩

theorem Storied.diff {s t : CharSet} : s.Storied → t.Storied → (s.diff t).Storied
  | ⟨h, hh⟩, ⟨g, hg⟩ => ⟨.diff h g, by rw [History.set, hh, hg]⟩

end CharSet

theorem exists_charValue (l : Token) : ∃ c : UInt32, (charValue l).value = c.toNat := by
  simp only [charValue, Noted.value_bind]
  split
  · rename_i c _
    exact ⟨c.val, rfl⟩
  · exact ⟨0, rfl⟩

theorem SimpleSet.storied_eval {t : Table} (ht : t.Storied) (s : SimpleSet) :
    (s.eval t).value.Storied := by
  cases s with
  | name n =>
    unfold eval
    dsimp only
    split
    · rename_i c hc
      obtain ⟨hlt, -⟩ := Array.findIdx?_eq_some_iff_getElem.mp hc
      exact ht.charClass hlt
    · exact CharSet.storied_empty
  | string s => exact CharSet.storied_ofList _
  | char l =>
    obtain ⟨c, hc⟩ := exists_charValue l
    refine ⟨.insert .empty c, ?_⟩
    simp only [eval, Noted.value_bind, Noted.value_pure, hc]
    rfl
  | range lo hi =>
    obtain ⟨a, ha⟩ := exists_charValue lo
    obtain ⟨b, hb⟩ := exists_charValue hi
    simp only [eval, Noted.value_bind, Noted.value_pure, ha, hb]
    split
    · rename_i hle
      exact ⟨.insertRange .empty a b (UInt32.le_iff_toNat_le.mpr hle), rfl⟩
    · exact CharSet.storied_empty
  | any => exact ⟨.fill .empty, rfl⟩

theorem storied_evalTerms {t : Table} (ht : t.Storied) (terms : List SetTerm) :
    (evalTerms t terms).value.Storied := by
  rw [evalTerms, Noted.value_foldlM]
  refine List.foldlRecOn terms _ CharSet.storied_empty fun s hs term _ => ?_
  simp only [Noted.value_bind, Noted.value_pure]
  have hr := term.set.storied_eval ht
  split
  · exact hs.diff hr
  · exact hs.union hr

namespace Table

/-- Every class has a set that meets `P`. -/
def Classed (P : CharSet → Prop) (t : Table) : Prop := ∀ k ∈ t.classes, P k.set

variable {P : CharSet → Prop} {t u : Table}

theorem classed_empty : empty.Classed P := fun k hk => absurd hk (Array.not_mem_empty k)

theorem Classed.addClass (ht : t.Classed P) (name : String) {set : CharSet} (hs : P set) :
    (t.addClass name set).1.Classed P := by
  intro k hk
  have hpush (x : CharClass) (hx : P x.set) (hk : k ∈ t.classes.push x) : P k.set := by
    rcases Array.mem_push.mp hk with hk | rfl
    · exact ht k hk
    · exact hx
  unfold Table.addClass at hk
  split at hk <;> exact hpush _ hs hk

theorem Classed.of_classes (ht : t.Classed P) (h : u.classes = t.classes) : u.Classed P :=
  fun k hk => ht k (h ▸ hk)

theorem classes_declare (t : Table) (k : SymbolKind) (name : String) (line : Nat) :
    (t.declare k name line).value.1.classes = t.classes := by
  unfold Table.declare
  split <;> cases k <;> rfl

theorem classes_numberPragmas (t : Table) : t.numberPragmas.classes = t.classes :=
  List.foldlRecOn (motive := fun u : Table => u.classes = t.classes) _ _ rfl fun _ hu _ _ => hu

theorem classes_addLiteral (t : Table) (spelling : String) (s : SymbolId) :
    (t.addLiteral spelling s).classes = t.classes := by
  unfold Table.addLiteral
  split <;> rfl

end Table

section

variable {P : CharSet → Prop} {t : Table}

/-- Behind the declarations of classes, only empty ones are added. -/
theorem TokenAtom.classed_build (hP : P .empty) (ht : t.Classed P) (a : TokenAtom) :
    (a.build t).value.1.Classed P := by
  cases a with
  | className n =>
    unfold build
    dsimp only
    split
    · exact ht.of_classes rfl
    · exact (ht.addClass n.text hP).of_classes rfl
  | literal l =>
    refine ht.of_classes ?_
    simp only [build, Table.addLiteralChars, Noted.value_bind, Noted.value_ite, Noted.value_pure,
      ite_self]
    rfl

namespace TokenDecl

variable {k : SymbolKind}

theorem classed_setBody (hP : P .empty) (ht : t.Classed P) (s : SymbolId) (name : Token)
    (e : Expr TokenAtom) : (setBody t s name e).value.Classed P := by
  have hbuild := Expr.kept_build (E := fun _ => True) (P := Table.Classed P)
    (fun t g ht => ht.of_classes rfl) (fun t a _ ht _ => a.classed_build hP ht) e e.all_true ht
    fun _ _ => trivial
  simp only [setBody, Noted.value_bind, Noted.value_ite, ite_self]
  split
  · simp only [Noted.value_bind, Noted.value_ite, Noted.value_pure, ite_self]
    exact hbuild.of_classes (Table.classes_addLiteral ..)
  · exact hbuild.of_classes rfl

theorem classes_setAction (t : Table) (s : SymbolId) (action : Token) :
    (setAction k t s action).value.classes = t.classes := by
  simp only [setAction, Noted.value_bind, Noted.value_ite, Noted.value_pure, ite_self]
  rfl

theorem classed_declare (hP : P .empty) (ht : t.Classed P) (d : TokenDecl) :
    (d.declare k t).value.Classed P := by
  have hname : (declareName k t d.name).value.1.Classed P := by
    unfold declareName
    split
    · exact ht
    · exact ht.of_classes (Table.classes_declare ..)
  unfold declare
  rw [Noted.value_bind]
  cases d.body with
  | some e =>
    have hbody := classed_setBody hP hname (declareName k t d.name).value.2 d.name e
    cases d.action with
    | some a => exact hbody.of_classes (classes_setAction ..)
    | none => exact hbody
  | none =>
    have hbody : (if d.name.kind = .string then (declareName k t d.name).value.1.modifySymbol
        (declareName k t d.name).value.2 fun s => { s with tokenKind := .literal }
        else (declareName k t d.name).value.1).Classed P := by
      split
      · exact hname.of_classes rfl
      · exact hname
    cases d.action with
    | some a => exact hbody.of_classes (classes_setAction ..)
    | none => exact hbody

end TokenDecl

theorem Atom.classes_build (t : Table) (a : Atom) : (a.build t).value.1.classes = t.classes := by
  cases a with
  | symbol weak name attributes =>
    have hused : (used t name).1.classes = t.classes := by
      unfold used
      split
      · rfl
      · unfold declareUse
        split <;> exact Table.classes_declare ..
    rw [build, value_buildSymbol]
    dsimp only
    split <;> exact hused
  | _ => rfl

theorem Production.classed_declare (ht : t.Classed P) (p : Production) :
    (p.declare t).value.Classed P := by
  have hname : (declareName t p.name).value.1.1.classes = t.classes := by
    unfold declareName
    split
    · exact Table.classes_declare ..
    · simp only [Noted.value_bind, Noted.value_ite, Noted.value_pure, ite_self]
      rfl
  have henter : (enter t p).1.Classed P := by
    refine ht.of_classes ?_
    unfold enter
    dsimp only
    split <;> exact hname
  have hbody := Expr.kept_build (E := fun _ => True) (P := Table.Classed P)
    (fun t g ht => ht.of_classes rfl) (fun t a _ ht _ => ht.of_classes (a.classes_build t)) p.body
    p.body.all_true henter fun _ _ => trivial
  rw [value_declare]
  exact hbody.of_classes rfl

theorem Sections.classed_declare (s : Sections) (hP : P .empty)
    (hsets : ∀ d ∈ s.sets, ∀ t : Table, t.Classed P → P (evalTerms t d.terms).value) :
    s.declare.value.Classed P := by
  have hset (t : Table) (ht : t.Classed P) (d : SetDecl) (hd : d ∈ s.sets) :
      (d.declare t).value.Classed P := by
    simp only [SetDecl.declare, Noted.value_bind, Noted.value_ite, Noted.value_pure, ite_self]
    exact ht.addClass _ (hsets d hd t ht)
  simp only [declare, Noted.value_bind, Noted.value_foldlM]
  refine List.foldlRecOn s.productions _ ?_ fun t ht p _ => p.classed_declare ht
  have hclasses := List.foldlRecOn s.sets (fun t d => (SetDecl.declare t d).value)
    Table.classed_empty hset
  have htokens := List.foldlRecOn s.tokens (fun t d => (TokenDecl.declare .terminal t d).value)
    hclasses fun t ht d _ => d.classed_declare hP ht
  have hpragmas := List.foldlRecOn s.pragmas (fun t d => (TokenDecl.declare .pragma t d).value)
    htokens fun t ht d _ => d.classed_declare hP ht
  exact hpragmas.of_classes rfl

theorem Definition.classed_table (d : Definition) (hP : P .empty)
    (hsets : ∀ c ∈ d.sections.sets, ∀ t : Table, t.Classed P → P (evalTerms t c.terms).value) :
    d.table.value.Classed P := by
  have hstart (t : Table) : (setStart t d.name d.ending).value.classes = t.classes := by
    unfold setStart
    simp only [Noted.value_bind, Noted.value_ite, ite_self]
    split
    · simp only [Noted.value_bind, Noted.value_ite, Noted.value_pure, ite_self]
      split <;> rfl
    · rfl
  have hend (t : Table) : t.endProductions.value.classes = t.classes :=
    Table.classes_numberPragmas _
  rw [table, Noted.value_bind, Noted.value_bind]
  exact (d.sections.classed_declare hP hsets).of_classes ((hend _).trans (hstart _))

end

theorem Definition.storied_table (d : Definition) : d.table.value.Storied :=
  d.classed_table CharSet.storied_empty fun c _ _ ht => storied_evalTerms ht c.terms

theorem Grammar.storied_parse {source : String} {cfg : Config} {log : Log} {g : Grammar}
    (hg : (Grammar.parse source cfg log).2 = .ok g) : g.table.Storied := by
  obtain ⟨d, -, rfl⟩ := exists_read hg
  exact d.storied_table

/-! ### What is observed -/

/-- What is observed of sets that have come about by operations on sets is about their values. -/
theorem History.observers (h g : History) :
    (h.set = g.set ↔ h.set.members = g.set.members) ∧
    (h.set.includes g.set = true ↔ g.set.members ⊆ h.set.members) ∧
    (h.set.intersects g.set = true ↔ (h.set.members ∩ g.set.members).Nonempty) ∧
    h.set.count = h.set.members.ncard ∧
    (h.set.min? = none ↔ h.set.members = ∅) ∧
    (∀ m, h.set.min? = some m ↔ IsLeast (UInt32.toNat '' h.set.members) m) ∧
    ∀ t : Table, t.Storied →
      (t.classBySet? h.set = none ↔ ∀ k ∈ t.classes, k.set.members ≠ h.set.members) ∧
      ∀ i, t.classBySet? h.set = some i ↔ i < t.classes.size ∧
        (t.charClass i).set.members = h.set.members ∧
        ∀ j < i, (t.charClass j).set.members ≠ h.set.members :=
  ⟨h.set_eq_iff g, h.includes_iff g, h.intersects_iff g, h.count_eq, h.min?_eq_none_iff,
    h.min?_eq_some_iff, fun _ ht => ⟨ht.classBySet?_eq_none_iff h,
      fun _ => ht.classBySet?_eq_some_iff h⟩⟩

namespace Grammar

/-- The last two classes have the same characters. -/
def twins : String :=
  "COMPILER A\nCHARACTERS\na = ANY - 'x'.\nb = \"xzy\".\nc = 'x' .. 'z'.\n" ++
    "PRODUCTIONS\nA = \"t\".\nEND A."

set_option maxRecDepth 100000 in
/-- The first of them is found by those characters. -/
theorem members_twins : ∃ g, (Grammar.parse twins default {}).2 = .ok g ∧ g.table.Storied ∧
    g.table.classBySet? (History.insertRange .empty 120 122 (by decide)).set = some 1 ∧
    (g.table.charClass 1).set.members =
      (History.insertRange .empty 120 122 (by decide)).set.members := by
  obtain ⟨g, hg, h⟩ := exists_ok_of_any (x := (Grammar.parse twins default {}).2)
    (P := fun g => g.table.classBySet?
      (History.insertRange .empty 120 122 (by decide)).set == some 1) (by decide +kernel)
  have hfound := beq_iff_eq.mp h
  obtain ⟨-, -, -, -, -, -, hclass⟩ := History.observers
    (.insertRange .empty 120 122 (by decide)) .empty
  exact ⟨g, hg, storied_parse hg, hfound, (((hclass g.table (storied_parse hg)).2 1).mp hfound).2.1⟩

end Grammar

end Lookahead
