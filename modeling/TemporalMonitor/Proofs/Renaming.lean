import TemporalMonitor.Proofs.Isomorphism

/-! Renamings of arenas. When the entries of two arenas correspond so that each obligation can be met
in the same ways, complete expansions correspond, and with them what can be reached in the graphs they
span. Two formulas whose arenas are so related therefore have isomorphic automata. -/

namespace TemporalMonitor

section

variable {m n : Nat}

def Key.map (ρ : Fin m ≃ Fin n) (key : Key m) : Key n :=
  (key.1.map ρ, key.2.map ρ)

@[simp] theorem Key.map_map_symm (ρ : Fin m ≃ Fin n) (key : Key m) :
    (key.map ρ).map ρ.symm = key := by
  simp [map]

theorem Key.map_injective (ρ : Fin m ≃ Fin n) : Function.Injective (Key.map ρ) := by
  intro k l h
  rw [← map_map_symm ρ k, h, map_map_symm]

/-- The branches ask for the same up to renaming, in any order. -/
structure Branch.Renames (ρ : Fin m ≃ Fin n) (b : Branch (Fin m)) (b' : Branch (Fin n)) : Prop where
  now : ∀ v, ρ v ∈ b'.now ↔ v ∈ b.now
  later : ∀ v, ρ v ∈ b'.later ↔ v ∈ b.later

theorem Branch.Renames.symm {ρ : Fin m ≃ Fin n} {b : Branch (Fin m)} {b' : Branch (Fin n)}
    (h : b.Renames ρ b') : b'.Renames ρ.symm b := by
  refine ⟨?_, ?_⟩
  · intro v
    rw [← h.now, ρ.apply_symm_apply]
  · intro v
    rw [← h.later, ρ.apply_symm_apply]

/-- If the branches chosen on both sides rename each other wherever an obligation comes up, the same
obligations come up. -/
theorem derives_map_iff {ρ : Fin m ≃ Fin n} {choice : Choice m} {choice' : Choice n}
    {due : IndexSet m} (h : ∀ i, Derives choice due ∅ i → (choice i).Renames ρ (choice' (ρ i)))
    {i : Fin m} : Derives choice' (due.map ρ) ∅ (ρ i) ↔ Derives choice due ∅ i := by
  constructor
  · have hback : ∀ j, Derives choice' (due.map ρ) ∅ j → Derives choice due ∅ (ρ.symm j) := by
      intro j hj
      induction hj with
      | pending hd => exact .pending (IndexSet.mem_map.1 hd)
      | now _ hc _ ih =>
        have hr := h _ ih
        rw [ρ.apply_symm_apply] at hr
        refine .now ih ((hr.now _).1 ?_) (IndexSet.mem_empty _)
        rwa [ρ.apply_symm_apply]
    intro hi
    have hh := hback _ hi
    rwa [ρ.symm_apply_apply] at hh
  · intro hi
    induction hi with
    | pending hd => exact .pending (IndexSet.apply_mem_map.2 hd)
    | now hi hc _ ih => exact .now ih (((h _ hi).now _).2 hc) (IndexSet.mem_empty _)

end

/-- A renaming of entries under which obligations are met in the same ways and literals stay. -/
structure Arena.Renaming (A B : Arena) where
  rename : Fin A.size ≃ Fin B.size
  branch : ∀ u, ∀ b ∈ (A.rule u).branches,
    ∃ b' ∈ (B.rule (rename u)).branches, b.Renames rename b'
  branch_back : ∀ u, ∀ b' ∈ (B.rule (rename u)).branches,
    ∃ b ∈ (A.rule u).branches, b.Renames rename b'
  proposition? : ∀ u, B.proposition? (rename u) = A.proposition? u
  negated? : ∀ u, B.negated? (rename u) = A.negated? u

section

variable {A B : Arena}

def Arena.Renaming.symm (r : A.Renaming B) : B.Renaming A where
  rename := r.rename.symm
  branch u b hb := by
    obtain ⟨b', hb', h⟩ := r.branch_back (r.rename.symm u) b (by rwa [r.rename.apply_symm_apply])
    exact ⟨b', hb', h.symm⟩
  branch_back u b' hb' := by
    obtain ⟨b, hb, h⟩ := r.branch (r.rename.symm u) b' hb'
    exact ⟨b, by rwa [r.rename.apply_symm_apply] at hb, h.symm⟩
  proposition? u := by rw [← r.proposition?, r.rename.apply_symm_apply]
  negated? u := by rw [← r.negated?, r.rename.apply_symm_apply]

variable (r : A.Renaming B)

theorem Arena.Renaming.exists_choice {choice : Choice A.size} {due : IndexSet A.size}
    (h : ∀ i, Derives choice due ∅ i → choice i ∈ (A.rule i).branches) :
    ∃ choice' : Choice B.size, ∀ i, Derives choice due ∅ i →
      choice' (r.rename i) ∈ (B.rule (r.rename i)).branches ∧
        (choice i).Renames r.rename (choice' (r.rename i)) := by
  have hex : ∀ i, ∃ b', Derives choice due ∅ i →
      b' ∈ (B.rule (r.rename i)).branches ∧ (choice i).Renames r.rename b' := by
    intro i
    by_cases hi : Derives choice due ∅ i
    · obtain ⟨b', hb', hr⟩ := r.branch i _ (h i hi)
      exact ⟨b', fun _ => ⟨hb', hr⟩⟩
    · exact ⟨⟨[], []⟩, fun hd => absurd hd hi⟩
  obtain ⟨pick, hp⟩ := Classical.axiomOfChoice hex
  refine ⟨fun j => pick (r.rename.symm j), ?_⟩
  intro i hi
  simp only [r.rename.symm_apply_apply]
  exact hp i hi

theorem Arena.Renaming.expands_map {due : IndexSet A.size} {key : Key A.size}
    (h : A.Expands due key) : B.Expands (due.map r.rename) (key.map r.rename) := by
  obtain ⟨choice, hmem, hsat, hdef⟩ := Arena.expands_iff.1 h
  obtain ⟨choice', hchoice⟩ := r.exists_choice hmem
  have hren : ∀ i, Derives choice due ∅ i →
      (choice i).Renames r.rename (choice' (r.rename i)) := fun i hi => (hchoice i hi).2
  refine Arena.expands_iff.2 ⟨choice', ?_, ?_, ?_⟩
  · intro j hj
    obtain ⟨i, rfl⟩ := r.rename.surjective j
    exact (hchoice i ((derives_map_iff hren).1 hj)).1
  · intro j
    obtain ⟨i, rfl⟩ := r.rename.surjective j
    rw [derives_map_iff hren, ← hsat]
    exact IndexSet.apply_mem_map
  · intro j
    obtain ⟨c, rfl⟩ := r.rename.surjective j
    refine (IndexSet.apply_mem_map.trans (hdef c)).trans ⟨?_, ?_⟩
    · intro hh
      obtain ⟨i, hi, hc⟩ := hh
      exact ⟨r.rename i, (derives_map_iff hren).2 hi, ((hren i hi).later c).2 hc⟩
    · intro hh
      obtain ⟨j, hj, hc⟩ := hh
      obtain ⟨i, rfl⟩ := r.rename.surjective j
      have hi := (derives_map_iff hren).1 hj
      exact ⟨i, hi, ((hren i hi).later c).1 hc⟩

theorem asked_map {m n : Nat} (ρ : Fin m ≃ Fin n) (root : Fin m) (l : Option (Key m)) :
    asked (ρ root) (l.map (Key.map ρ)) = (asked root l).map ρ := by
  cases l with
  | none => exact (IndexSet.map_singleton ρ root).symm
  | some key => rfl

variable {root : Fin A.size} {l l' : Option (Key A.size)}

theorem Arena.Renaming.leads_map (h : A.Leads root l l') :
    B.Leads (r.rename root) (l.map (Key.map r.rename)) (l'.map (Key.map r.rename)) := by
  obtain ⟨key, rfl, hk⟩ := h
  refine ⟨key.map r.rename, rfl, ?_⟩
  rw [asked_map]
  exact r.expands_map hk

theorem Arena.Renaming.reaches_map (h : Relation.ReflTransGen (A.Leads root) l l') :
    Relation.ReflTransGen (B.Leads (r.rename root)) (l.map (Key.map r.rename))
      (l'.map (Key.map r.rename)) :=
  Relation.ReflTransGen.lift (Option.map (Key.map r.rename)) (fun _ _ hl => r.leads_map hl) _ _ h

theorem Key.option_map_map_symm {m n : Nat} (ρ : Fin m ≃ Fin n) (l : Option (Key m)) :
    (l.map (Key.map ρ)).map (Key.map ρ.symm) = l := by
  cases l <;> simp

theorem Arena.Renaming.leads_map_iff :
    B.Leads (r.rename root) (l.map (Key.map r.rename)) (l'.map (Key.map r.rename)) ↔
      A.Leads root l l' := by
  refine ⟨?_, r.leads_map⟩
  intro h
  have hh := r.symm.leads_map h
  simpa only [symm, Equiv.symm_apply_apply, Key.option_map_map_symm] using hh

theorem Arena.Renaming.reaches_map_iff :
    Relation.ReflTransGen (B.Leads (r.rename root)) (l.map (Key.map r.rename))
      (l'.map (Key.map r.rename)) ↔ Relation.ReflTransGen (A.Leads root) l l' := by
  refine ⟨?_, r.reaches_map⟩
  intro h
  have hh := r.symm.reaches_map h
  simpa only [symm, Equiv.symm_apply_apply, Key.option_map_map_symm] using hh

end

theorem exists_equiv_of_labels {α β γ : Type} {a : α → γ} {b : β → γ} (ha : Function.Injective a)
    (hb : Function.Injective b) (h : ∀ l, (∃ i, a i = l) ↔ ∃ j, b j = l) :
    ∃ φ : α ≃ β, ∀ i, b (φ i) = a i := by
  have hab : ∀ i, ∃ j, b j = a i := fun i => (h (a i)).1 ⟨i, rfl⟩
  obtain ⟨φ, hφ⟩ := Classical.axiomOfChoice hab
  have hbij : Function.Bijective φ := by
    refine ⟨?_, ?_⟩
    · intro i j hij
      exact ha ((hφ i).symm.trans ((congrArg b hij).trans (hφ j)))
    · intro j
      obtain ⟨i, hi⟩ := (h (b j)).2 ⟨j, rfl⟩
      exact ⟨i, hb ((hφ i).trans hi)⟩
  exact ⟨Equiv.ofBijective φ hbij, hφ⟩

/-- What is met at a node with a label; nothing is met at the initial node. -/
def met {n : Nat} : Option (Key n) → IndexSet n
  | none => ∅
  | some key => key.1

theorem Tableau.satisfied_eq {t : Tableau} (i : Fin t.size) :
    (t.node i).satisfied = met (t.label i) :=
  i.cases rfl fun _ => rfl

section

variable {f g : Formula} {r : (Tableau.build f).arena.Renaming (Tableau.build g).arena}

theorem Tableau.exists_equiv_of_renaming
    (hroot : r.rename (Tableau.build f).root = (Tableau.build g).root) :
    ∃ φ : Fin (Tableau.build f).size ≃ Fin (Tableau.build g).size,
      ∀ i, (Tableau.build g).label (φ i) = ((Tableau.build f).label i).map (Key.map r.rename) := by
  apply exists_equiv_of_labels
  · exact (Option.map_injective (Key.map_injective r.rename)).comp (label_build_injective f)
  · exact label_build_injective g
  · intro l
    have hl : (l.map (Key.map r.rename.symm)).map (Key.map r.rename) = l :=
      Key.option_map_map_symm r.rename.symm l
    rw [exists_label_build_iff, ← hroot, ← hl]
    refine Iff.trans ?_ (r.reaches_map_iff (l := none)).symm
    rw [← exists_label_build_iff]
    have hinj := Option.map_injective (Key.map_injective r.rename)
    exact exists_congr fun i => hinj.eq_iff

variable {φ : Fin (Tableau.build f).size ≃ Fin (Tableau.build g).size}
  (hφ : ∀ i, (Tableau.build g).label (φ i) = ((Tableau.build f).label i).map (Key.map r.rename))
include hφ

theorem Tableau.init_of_renaming : φ (Tableau.build f).init = (Tableau.build g).init :=
  label_build_injective g (hφ _)

theorem Tableau.out_of_renaming (hroot : r.rename (Tableau.build f).root = (Tableau.build g).root)
    (i : Fin (Tableau.build f).size) :
    (Tableau.build g).out (φ i) = ((Tableau.build f).out i).map φ := by
  apply IndexSet.ext
  intro j
  obtain ⟨j, rfl⟩ := φ.surjective j
  rw [IndexSet.apply_mem_map, mem_out_build_iff, mem_out_build_iff, hφ, hφ, ← hroot,
    r.leads_map_iff]

theorem Tableau.perm_literals_of_renaming
    {read : Fin (Tableau.build f).arena.size → Option Proposition}
    {read' : Fin (Tableau.build g).arena.size → Option Proposition}
    (h : ∀ u, read' (r.rename u) = read u) (i : Fin (Tableau.build f).size) :
    (((Tableau.build g).node (φ i)).satisfied.toList.filterMap read').Perm
      (((Tableau.build f).node i).satisfied.toList.filterMap read) := by
  have hsat : ((Tableau.build g).node (φ i)).satisfied =
      ((Tableau.build f).node i).satisfied.map r.rename := by
    rw [satisfied_eq, satisfied_eq, hφ]
    cases (Tableau.build f).label i with
    | none => exact (IndexSet.map_empty r.rename).symm
    | some key => rfl
  rw [hsat]
  refine ((IndexSet.perm_toList_map r.rename _).filterMap read').trans ?_
  rw [List.filterMap_map]
  exact .of_eq (congrArg (List.filterMap · _) (funext h))

theorem Tableau.perm_propositions_of_renaming (i : Fin (Tableau.build f).size) :
    ((Tableau.build g).propositions (φ i)).Perm ((Tableau.build f).propositions i) :=
  (perm_literals_of_renaming hφ r.proposition? i).filter _

theorem Tableau.perm_negated_of_renaming (i : Fin (Tableau.build f).size) :
    ((Tableau.build g).negated (φ i)).Perm ((Tableau.build f).negated i) :=
  perm_literals_of_renaming hφ r.negated? i

omit hφ

theorem Tableau.exists_iso_of_renaming
    (hroot : r.rename (Tableau.build f).root = (Tableau.build g).root) :
    Nonempty ((Tableau.build f).Iso (.build g)) := by
  obtain ⟨φ, hφ⟩ := exists_equiv_of_renaming hroot
  exact ⟨φ, init_of_renaming hφ, out_of_renaming hφ hroot, perm_propositions_of_renaming hφ,
    perm_negated_of_renaming hφ⟩

end

end TemporalMonitor
