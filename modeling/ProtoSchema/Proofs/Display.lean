import ProtoSchema.Proofs.Walking

/-!
# The display of a tree determines it

A tree is displayed with one line for each node: two blanks for each level above it, its kind, and
its text in quotes unless it is empty. Quotes, blanks and names of kinds may stand in the texts as
well, but if no text breaks a line, nothing is lost: a line tells the depth, the kind and the text
of its node, and the depths tell which node is a child of which.

* `MadeOfLines`: a text as lines, each ended by a line feed; `MadeOfLines.unique`.
* `Node.Heading`: what a line shows of a node; `Node.Heading.line_injective` reads it off the line.
* `Node.eq_of_headings`: the headings in preorder determine the trees.
* `Node.display_determines_tree`: the display determines the tree.
-/

namespace ProtoSchema

/-! ### Lines ended by line feeds -/

section Lines

variable {first first' second second' text : List Char} {lines lines' : List (List Char)}

/-- A text is cut in one way only into characters that pass a test and the rest from the first
character on that does not. -/
theorem cut_unique {P : Char → Prop} (hfirst : ∀ c ∈ first, P c) (hfirst' : ∀ c ∈ first', P c)
    (hsecond : ∀ c ∈ second.head?, ¬P c) (hsecond' : ∀ c ∈ second'.head?, ¬P c)
    (h : first ++ second = first' ++ second') : first = first' ∧ second = second' := by
  induction first generalizing first' with
  | nil =>
    cases first' with
    | nil => exact ⟨rfl, h⟩
    | cons c rest =>
      rw [List.nil_append] at h
      exact absurd (hfirst' c List.mem_cons_self) (hsecond c (by rw [h]; rfl))
  | cons c rest ih =>
    cases first' with
    | nil =>
      rw [List.nil_append] at h
      exact absurd (hfirst c List.mem_cons_self) (hsecond' c (by rw [← h]; rfl))
    | cons c' rest' =>
      obtain ⟨rfl, htail⟩ := List.cons.inj h
      rw [List.forall_mem_cons] at hfirst hfirst'
      obtain ⟨rfl, hrest⟩ := ih hfirst.2 hfirst'.2 htail
      exact ⟨rfl, hrest⟩

/-- A text is made of lines, each of them ended by a line feed. -/
structure MadeOfLines (text : List Char) (lines : List (List Char)) : Prop where
  text_eq : text = lines.flatMap (· ++ ['\n'])
  unbroken : ∀ line ∈ lines, '\n' ∉ line

/-- The lines of a text are determined by it. -/
theorem MadeOfLines.unique (h : MadeOfLines text lines) (h' : MadeOfLines text lines') :
    lines = lines' := by
  have htext := h.text_eq.symm.trans h'.text_eq
  replace h := h.unbroken
  replace h' := h'.unbroken
  induction lines generalizing lines' with
  | nil =>
    cases lines' with
    | nil => rfl
    | cons line rest => simp at htext
  | cons line rest ih =>
    cases lines' with
    | nil => simp at htext
    | cons line' rest' =>
      rw [List.forall_mem_cons] at h h'
      simp only [List.flatMap_cons, List.append_assoc, List.singleton_append] at htext
      have hcut := cut_unique (P := (· ≠ '\n')) (fun c hc heq => h.1 (heq ▸ hc))
        (fun c hc heq => h'.1 (heq ▸ hc)) (by simp) (by simp) htext
      rw [hcut.1, ih (List.cons.inj hcut.2).2 h.2 h'.2]

end Lines

namespace Node

/-! ### What a line shows -/

/-- What a line shows of a node. -/
structure Heading where
  depth : Nat
  kind : Kind
  value : String
deriving DecidableEq, Repr

/-- What the line of a visited node shows. -/
def heading (entry : Node × Nat) : Heading := ⟨entry.2, entry.1.kind, entry.1.value⟩

namespace Heading

/-- The text behind the kind. -/
def tail (heading : Heading) : List Char :=
  if heading.value = "" then [] else ' ' :: '\'' :: (heading.value.toList ++ ['\''])

/-- The line without the line feed at its end. -/
def line (heading : Heading) : List Char :=
  List.replicate (2 * heading.depth) ' ' ++ (heading.kind.label.toList ++ heading.tail)

/-- The name of a kind is one word. -/
theorem label_unbroken (kind : Kind) :
    kind.label.toList ≠ [] ∧ ' ' ∉ kind.label.toList ∧ '\n' ∉ kind.label.toList := by
  cases kind <;> decide

theorem label_injective {kind kind' : Kind} (h : kind.label = kind'.label) : kind = kind' := by
  have hkind := Kind.ofLabel?_label kind
  rw [h, Kind.ofLabel?_label] at hkind
  exact (Option.some.inj hkind).symm

variable {heading heading' : Heading}

theorem head?_tail (heading : Heading) : ∀ c ∈ heading.tail.head?, ¬c ≠ ' ' := by
  unfold tail
  split <;> simp

theorem head?_label (heading : Heading) :
    ∀ c ∈ (heading.kind.label.toList ++ heading.tail).head?, c ≠ ' ' := by
  obtain ⟨hne, hblank, -⟩ := label_unbroken heading.kind
  obtain ⟨first, rest, hlabel⟩ := List.exists_cons_of_ne_nil hne
  rw [hlabel] at hblank ⊢
  intro c hc heq
  cases hc
  exact hblank (heq ▸ List.mem_cons_self)

theorem value_of_tail (h : heading.tail = heading'.tail) : heading.value = heading'.value := by
  unfold tail at h
  split at h <;> split at h
  · simp only [*]
  · cases h
  · cases h
  · have hquoted := (List.cons.inj (List.cons.inj h).2).2
    exact String.toList_inj.1 (List.append_cancel_right hquoted)

/-- **A line determines what it shows.** Its blanks end where the kind starts, and the kind ends at
the next blank or with the line. -/
theorem line_injective (h : heading.line = heading'.line) : heading = heading' := by
  obtain ⟨hindent, hword⟩ := cut_unique (P := (· = ' ')) (by simp) (by simp) heading.head?_label
    heading'.head?_label h
  have hlabel (kind : Kind) : ∀ c ∈ kind.label.toList, c ≠ ' ' :=
    fun c hc heq => (label_unbroken kind).2.1 (heq ▸ hc)
  obtain ⟨hkind, htail⟩ := cut_unique (P := (· ≠ ' ')) (hlabel _) (hlabel _) heading.head?_tail
    heading'.head?_tail hword
  have hdepth : heading.depth = heading'.depth := by
    have hlength := congrArg List.length hindent
    rw [List.length_replicate, List.length_replicate] at hlength
    omega
  obtain ⟨depth, kind, value⟩ := heading
  obtain ⟨depth', kind', value'⟩ := heading'
  rw [Heading.mk.injEq]
  exact ⟨hdepth, label_injective (String.toList_inj.1 hkind), value_of_tail htail⟩

theorem not_mem_line (h : '\n' ∉ heading.value.toList) : '\n' ∉ heading.line := by
  have hlabel := (label_unbroken heading.kind).2.2
  unfold line tail
  split <;> simp [h, hlabel]

end Heading

theorem toList_displayLine (node : Node) (depth : Nat) :
    (node.displayLine depth).toList = (heading (node, depth)).line ++ ['\n'] := by
  unfold displayLine Heading.line Heading.tail heading
  by_cases hvalue : node.value = ""
  · simp [hvalue, toString]
  · simp [hvalue, toString]

/-! ### From headings to trees -/

/-- The headings of trees at a depth, in preorder. -/
def headings (depth : Nat) (nodes : List Node) : List Heading :=
  (preorderAll depth nodes).map heading

theorem headings_nil (depth : Nat) : headings depth [] = [] := rfl

theorem headings_cons (depth : Nat) (kind : Kind) (value : String) (children rest : List Node) :
    headings depth (⟨kind, value, children⟩ :: rest) =
      ⟨depth, kind, value⟩ :: (headings (depth + 1) children ++ headings depth rest) := by
  rw [headings, preorderAll, preorder, List.map_append, List.map_cons]
  rfl

/-- Headings that belong to no tree at a depth: the first of them is less deep. -/
def Shallower (depth : Nat) (others : List Heading) : Prop :=
  ∀ heading ∈ others.head?, heading.depth < depth

theorem Shallower.append {depth : Nat} {others : List Heading} (h : Shallower depth others) :
    (nodes : List Node) → Shallower (depth + 1) (headings depth nodes ++ others)
  | [] => fun heading hmem => Nat.lt_succ_of_lt (h heading hmem)
  | ⟨kind, value, children⟩ :: rest => by
    rw [headings_cons]
    intro heading hmem
    cases hmem
    exact Nat.lt_succ_self depth

theorem not_shallower (depth : Nat) (node : Node) (rest : List Node) (others : List Heading) :
    ¬Shallower depth (headings depth (node :: rest) ++ others) := by
  obtain ⟨kind, value, children⟩ := node
  rw [headings_cons]
  intro h
  exact Nat.lt_irrefl depth (h ⟨depth, kind, value⟩ rfl)

/-- **Headings in preorder determine the trees.** The headings below a node are those that follow it
up to the first one that is not deeper, so the first node, the trees below it and the trees behind
it are found one after the other. -/
theorem eq_of_headings (depth : Nat) : (nodes nodes' : List Node) →
    (others others' : List Heading) → Shallower depth others → Shallower depth others' →
    headings depth nodes ++ others = headings depth nodes' ++ others' →
    nodes = nodes' ∧ others = others'
  | [], [], _, _, _, _, h => ⟨rfl, h⟩
  | [], node' :: rest', _, others', hothers, _, h => by
    rw [headings_nil, List.nil_append] at h
    exact absurd (h ▸ hothers) (not_shallower depth node' rest' others')
  | node :: rest, [], others, _, _, hothers', h => by
    rw [headings_nil, List.nil_append] at h
    exact absurd (h ▸ hothers') (not_shallower depth node rest others)
  | ⟨kind, value, children⟩ :: rest, ⟨kind', value', children'⟩ :: rest', others, others',
      hothers, hothers', h => by
    rw [headings_cons, headings_cons, List.cons_append, List.cons_append, List.append_assoc,
      List.append_assoc] at h
    obtain ⟨hhead, htail⟩ := List.cons.inj h
    obtain ⟨rfl, hbehind⟩ := eq_of_headings (depth + 1) children children' _ _
      (hothers.append rest) (hothers'.append rest') htail
    obtain ⟨rfl, hrest⟩ := eq_of_headings depth rest rest' others others' hothers hothers' hbehind
    cases hhead
    exact ⟨rfl, hrest⟩

/-! ### Whole displays -/

/-- No text of a tree has a line feed. -/
def Unbroken (root : Node) : Prop := ∀ entry ∈ root.preorder 0, '\n' ∉ entry.1.value.toList

instance (root : Node) : Decidable root.Unbroken :=
  inferInstanceAs (Decidable (∀ entry ∈ root.preorder 0, _))

variable {a b root : Node}

theorem toList_display (root : Node) :
    root.display.toList =
      ((root.preorder 0).map (Heading.line ∘ heading)).flatMap (· ++ ['\n']) := by
  rw [display, String.toList_join, walk_eq, List.flatMap_map, List.flatMap_map]
  congr 1
  funext entry
  exact toList_displayLine entry.1 entry.2

/-- A display is made of the lines of all nodes. -/
theorem Unbroken.madeOfLines (h : root.Unbroken) :
    MadeOfLines root.display.toList ((root.preorder 0).map (Heading.line ∘ heading)) where
  text_eq := toList_display root
  unbroken := by
    intro line hline
    obtain ⟨entry, hentry, rfl⟩ := List.mem_map.1 hline
    exact Heading.not_mem_line (h entry hentry)

theorem eq_of_display (ha : a.Unbroken) (hb : b.Unbroken) (h : a.display = b.display) : a = b := by
  have hlines := (h ▸ ha.madeOfLines).unique hb.madeOfLines
  rw [← List.map_map, ← List.map_map] at hlines
  have hheadings := (List.map_inj_right fun _ _ => Heading.line_injective).1 hlines
  have hroots : headings 0 [a] ++ [] = headings 0 [b] ++ [] := by
    simpa [headings, preorderAll] using hheadings
  have heq := (eq_of_headings 0 [a] [b] [] [] (by simp [Shallower]) (by simp [Shallower]) hroots).1
  exact List.singleton_inj.1 heq

/-- **The display of a tree determines the tree**, whatever its shape and whatever else stands in
its texts, as long as no text breaks a line; and it has one line for each node. -/
theorem display_determines_tree (ha : a.Unbroken) (hb : b.Unbroken) :
    (a.display = b.display ↔ a = b) ∧
      ∃ lines, MadeOfLines a.display.toList lines ∧ lines.length = a.count := by
  refine ⟨⟨eq_of_display ha hb, fun h => by rw [h]⟩, _, ha.madeOfLines, ?_⟩
  have hlength := length_walkStack [(a, 0)]
  rw [List.length_map, ← walk_eq, walk, hlength]
  rfl

/-- A tree whose texts have quotes, blanks and lines that look like those of other nodes. -/
def thornyTree : Node :=
  ⟨.root, "", [⟨.comment, "//", [.leaf .commentText "it's\r  Root 'x'"]⟩, .leaf .field "",
    .leaf .identifier "'"]⟩

/-- The nodes of `thornyTree` without the nesting. -/
def thornyLeaves : Node :=
  ⟨.root, "", [.leaf .comment "//", .leaf .commentText "it's\r  Root 'x'", .leaf .field "",
    .leaf .identifier "'"]⟩

/-- The two trees have the same lines but for one indentation, and it tells them apart. -/
theorem display_determines_tree_thornyTree :
    thornyTree.Unbroken ∧ thornyLeaves.Unbroken ∧ thornyTree.display ≠ thornyLeaves.display ∧
      ∃ lines, MadeOfLines thornyTree.display.toList lines ∧ lines.length = 5 := by
  have htree : thornyTree.Unbroken := by decide
  have hleaves : thornyLeaves.Unbroken := by decide
  obtain ⟨hiff, hlines⟩ := display_determines_tree htree hleaves
  exact ⟨htree, hleaves, fun h => absurd (hiff.1 h) (by decide), hlines⟩

end Node

end ProtoSchema
