import CodeModel.Proofs.Delta.Bench
import CodeModel.Proofs.Delta.StepLaw

/-!
# Lookup is exact

The report about an element is looked for along one path, among children that are kept by the relaxed
comparison. It is found exactly if there is one.

* The nodes of a tree, listed from the top down (`Delta.nodes`), are about **different** elements
  (`pairwise_nodes`), and what is found is one of them (`find?_eq_some_iff`).
* So looking for an element is **filtering** the nodes for it, strictly compared, in every tree that can be
  made (`Bench.find?_exact`).
* Nothing is found **below** an element that came or went as a whole (`find?_below_whole`).
-/

namespace CodeModel

namespace Delta

open Handle

variable {lex : Lexicon} {e : Handle} {d n w : Delta}

/-! ## The nodes of a tree -/

mutual

/-- The nodes of a tree, each before those below it. -/
def nodes : Delta → List Delta
  | ⟨element, status, flags, movedFrom, movedTo, markers, resources, children⟩ =>
    ⟨element, status, flags, movedFrom, movedTo, markers, resources, children⟩ :: nodesOfAll children

/-- The nodes of some trees, one tree after the other. -/
def nodesOfAll : List Delta → List Delta
  | [] => []
  | d :: ds => nodes d ++ nodesOfAll ds

end

/-- The nodes of several trees are those of each of them. -/
theorem nodesOfAll_eq_flatMap (ds : List Delta) : nodesOfAll ds = ds.flatMap nodes := by
  induction ds with
  | nil => rfl
  | cons d ds ih => rw [nodesOfAll, ih, List.flatMap_cons]

/-- The nodes of a tree are the root and the nodes of its children. -/
theorem nodes_eq (d : Delta) : d.nodes = d :: d.children.flatMap nodes := by
  cases d
  rw [nodes, nodesOfAll_eq_flatMap]

/-- A node of a tree is its root or a node of one of its children. This is the form in which inductions on trees use
the list of nodes. -/
theorem mem_nodes : n ∈ d.nodes ↔ n = d ∨ ∃ c ∈ d.children, n ∈ c.nodes := by
  rw [nodes_eq, List.mem_cons, List.mem_flatMap]

theorem mem_nodes_of_part (h : Part n d) : n ∈ d.nodes := by
  induction h with
  | self => exact mem_nodes.mpr (.inl rfl)
  | down child _ ih => exact mem_nodes.mpr (.inr ⟨_, child, ih⟩)

/-! ## The way to a node -/

/-- **To every node** there is a path, and following it one finds the node: at each step down, the child is found
under its element, as siblings are about different elements. -/
theorem exists_leads_of_mem_nodes (hd : Sound lex d) (hn : n ∈ d.nodes) :
    ∃ path, Leads d.element path n.element ∧ descend path d = some n := by
  induction hd with
  | @intro d tidy below ih =>
    rcases mem_nodes.mp hn with rfl | ⟨c, hc, hn⟩
    · exact ⟨[], .here _, rfl⟩
    · obtain ⟨path, hleads, hdescend⟩ := ih c hc hn
      have hb : BelongsTo lex d.element c.element := ⟨tidy.siblings.follows c hc, tidy.siblings.parent c hc⟩
      refine ⟨c.element :: path, .down hb.parent hleads, ?_⟩
      rw [descend_cons (.intro tidy below) hb, about?_of_mem tidy.siblings hb hc rfl]
      exact hdescend

theorem follows_of_mem_nodes (hd : Sound lex d) (hn : n ∈ d.nodes) : n.element.Follows lex := by
  induction hd with
  | @intro d tidy below ih =>
    rcases mem_nodes.mp hn with rfl | ⟨c, hc, hn⟩
    · exact tidy.follows
    · exact ih c hc hn

/-- **What is found** is the node about the element. One direction follows the path that is looked along; the other
follows the path to the node, which is the same, as there is only one. -/
theorem find?_eq_some_iff (hd : Sound lex d) (he : e.Follows lex) :
    d.find? e = some n ↔ n ∈ d.nodes ∧ n.element = e := by
  constructor
  · intro h
    exact ⟨mem_nodes_of_part (part_of_find? h), (Builder.sound_of_find? hd he h).2⟩
  · rintro ⟨hn, rfl⟩
    obtain ⟨path, hleads, hdescend⟩ := exists_leads_of_mem_nodes hd hn
    rwa [find?_of_leads hd.tidy.follows he hleads]

/-- **Different nodes** are about different elements: the paths to them are different, and a path can be told from
the element to which it leads. -/
theorem pairwise_nodes (hd : Sound lex d) : d.nodes.Pairwise fun n m => n.element ≠ m.element := by
  induction hd with
  | @intro d tidy below ih =>
    -- every node below the top is met on a path through one of the children
    have hpath : ∀ c ∈ d.children, ∀ n ∈ c.nodes,
        n.element.Follows lex ∧ ∃ path, Leads d.element (c.element :: path) n.element := by
      intro c hc n hn
      obtain ⟨path, hleads, -⟩ := exists_leads_of_mem_nodes (below c hc) hn
      exact ⟨follows_of_mem_nodes (below c hc) hn, path, .down (tidy.siblings.parent c hc) hleads⟩
    rw [nodes_eq, List.pairwise_cons, List.pairwise_flatMap]
    refine ⟨fun n hn heq => ?_, ih, ?_⟩
    · obtain ⟨c, hc, hn⟩ := List.mem_flatMap.mp hn
      obtain ⟨hf, path, hleads⟩ := hpath c hc n hn
      -- to the top itself there is the empty path only
      have hhere : Leads d.element [] n.element := heq ▸ .here d.element
      cases path_unique hf hleads hhere
    · refine tidy.siblings.apart.imp_of_mem fun {c k} hc hk hne n hn m hm heq => ?_
      obtain ⟨hf, path, hleads⟩ := hpath c hc n hn
      obtain ⟨-, other, hother⟩ := hpath k hk m hm
      exact hne (List.cons.inj (path_unique hf hleads (heq ▸ hother))).1

/-! ## Lookup as a filter -/

/-- Of elements of which no two have a property, the filter leaves the first that has it. -/
theorem filter_eq_toList_find? {α : Type} {p : α → Bool} {l : List α}
    (h : l.Pairwise fun a b => p a = true → p b = false) : l.filter p = (l.find? p).toList := by
  induction l with
  | nil => rfl
  | cons a l ih =>
    obtain ⟨ha, hl⟩ := List.pairwise_cons.mp h
    by_cases hp : p a = true
    · have hnone : l.filter p = [] := List.filter_eq_nil_iff.mpr fun b hb => by simp [ha b hb hp]
      rw [List.filter_cons_of_pos hp, hnone, List.find?_cons_of_pos hp]
      rfl
    · rw [List.filter_cons_of_neg hp, List.find?_cons_of_neg hp, ih hl]

/-- **Looking for an element** is filtering the nodes for it: at most one node is about the element, and it is the
one that is found. -/
theorem filter_nodes (hd : Sound lex d) (he : e.Follows lex) :
    d.nodes.filter (fun n => n.element.sameChain e) = (d.find? e).toList := by
  have hsame : ∀ n ∈ d.nodes, n.element.sameChain e = true ↔ n.element = e := fun n hn =>
    sameChain_iff (follows_of_mem_nodes hd hn) he
  have hone : d.nodes.Pairwise fun n m => n.element.sameChain e = true → m.element.sameChain e = false := by
    refine (pairwise_nodes hd).imp_of_mem fun {n m} hn hm hne h => ?_
    rw [← Bool.not_eq_true, hsame m hm]
    exact fun h' => hne (((hsame n hn).mp h).trans h'.symm)
  rw [filter_eq_toList_find? hone]
  refine congrArg Option.toList ?_
  rcases hl : d.nodes.find? (fun n => n.element.sameChain e) with _ | n
  · refine hl.trans (Option.eq_none_iff_forall_ne_some.mpr fun n h => ?_).symm
    obtain ⟨hn, hne⟩ := (find?_eq_some_iff hd he).mp h
    exact List.find?_eq_none.mp hl n hn ((hsame n hn).mpr hne)
  · have hn := List.mem_of_find?_eq_some hl
    have hne := (hsame n hn).mp (by simpa using List.find?_some hl)
    exact hl.trans ((find?_eq_some_iff hd he).mpr ⟨hn, hne⟩).symm

/-- **Below an element that came or went** as a whole nothing is found, since its node has no children. -/
theorem find?_below_whole (hd : Sound lex d) (he : e.Follows lex) (hw : w ∈ d.nodes)
    (hwhole : w.isWhole = true) (hbelow : w.element.isAncestorOf e = true) : d.find? e = none := by
  obtain ⟨hwf, hfind⟩ : w.element.Follows lex ∧ d.find? w.element = some w :=
    ⟨follows_of_mem_nodes hd hw,
      (find?_eq_some_iff hd (follows_of_mem_nodes hd hw)).mpr ⟨hw, rfl⟩⟩
  obtain ⟨rest, hne, hrest⟩ := exists_leads_of_mem_ancestors ((isAncestorOf_iff hwf he).mp hbelow)
  obtain ⟨path, hpath⟩ := exists_leads_of_find? hd.tidy.follows hwf hfind
  have hsound := (Builder.sound_of_find? hd hwf hfind).1
  have hchildless : w.children = [] := Classical.byContradiction fun hc => by
    rw [isWhole, (hsound.tidy.changed hc).1] at hwhole
    cases hwhole
  rw [find?_below hd.tidy.follows hpath he hrest, hfind, Option.bind_some,
    descend_childless hsound hchildless he hne hrest]

end Delta

namespace Bench

open Delta Handle

variable {lex : Lexicon} {tasks : List Task} {d : Delta} {e : Handle}

/-- **Lookup is exact** in every tree that can be made: there is at most one node that is strictly about an element,
and it is what is found. What is found is never just about an element that matches, and nothing is found below an
element that came or went as a whole. Although children are kept by the relaxed comparison, siblings that match are
equal, so on the way down no step can go astray. -/
theorem find?_exact (ht : ∀ t ∈ tasks, t.Follows lex) (hd : d ∈ (run {} tasks).trees) (he : e.Follows lex) :
    d.nodes.filter (fun n => n.element.sameChain e) = (d.find? e).toList ∧
    (∀ n, d.find? e = some n ↔ n ∈ d.nodes ∧ n.element.sameChain e = true) ∧
    (∀ w ∈ d.nodes, w.isWhole = true → w.element.isAncestorOf e = true → d.find? e = none) := by
  have hsound : Sound lex d := (IsRegular.tree (isRegular_run ⟨by simp, by simp⟩ ht) hd).sound
  refine ⟨filter_nodes hsound he, fun n => ?_, fun w hw => find?_below_whole hsound he hw⟩
  rw [find?_eq_some_iff hsound he]
  refine and_congr_right fun hn => (sameChain_iff (follows_of_mem_nodes hsound hn) he).symm

/-- One library reached through two projects: its leaf is reported in one of them, in the other one the
library was added. The two leaves match, but they are not found for each other, also not after a merge and a
copy. -/
theorem find?_exact_two_libraries :
    let root := Handle.top { name := "Tree" } (some "t")
    let libraryIn := fun project : String =>
      (root.sub { name := "Project" } project).sub { name := "Library", parentIndependent := true } "l"
    let leafIn := fun project => (libraryIn project).sub { name := "Leaf" } "x"
    let bench := run {} [.builder root, .report 0 (.changed (leafIn "a") Flags.content), .delta root,
      .report 0 (.added (libraryIn "b")), .build 0, .merge 0 1, .delta root, .copy 2 1 true]
    (leafIn "a").same (leafIn "b") = true ∧ bench.trees.length = 4 ∧
      ∀ d ∈ bench.trees,
        d.nodes.filter (fun n => n.element.sameChain (leafIn "a")) = (d.find? (leafIn "a")).toList ∧
        (d.find? (leafIn "a")).isSome = true ∧ d.find? (leafIn "b") = none := by
  intro root libraryIn leafIn bench
  let lex : Lexicon := fun name => { name, parentIndependent := name == "Library" }
  have hfollows : ∀ t ∈ [.builder root, .report 0 (.changed (leafIn "a") Flags.content), .delta root,
      .report 0 (.added (libraryIn "b")), .build 0, .merge 0 1, .delta root, .copy 2 1 true],
      Task.Follows lex t := by decide
  have hfound : ∀ d ∈ bench.trees, (d.find? (leafIn "a")).isSome = true := by decide
  have hadded : ∀ d ∈ bench.trees,
      d.nodes.any (fun w => w.isWhole && w.element.isAncestorOf (leafIn "b")) = true := by decide
  refine ⟨by decide, by decide, fun d hd => ⟨?_, hfound d hd, ?_⟩⟩
  · exact (find?_exact hfollows hd (show (leafIn "a").Follows lex by decide)).1
  · obtain ⟨w, hw, hboth⟩ := List.any_eq_true.mp (hadded d hd)
    obtain ⟨hwhole, hbelow⟩ := Bool.and_eq_true_iff.mp hboth
    exact (find?_exact hfollows hd (show (leafIn "b").Follows lex by decide)).2.2 w hw hwhole hbelow

end Bench

end CodeModel
