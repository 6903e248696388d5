import QuestOS.Lib.RbTree

/-!
# The data of augmented red-black trees

Insertion and removal keep the data at every node right, if what `compute` gives for a subtree does not change when the
subtree is rotated (`RotInvariant`).  A removal keeps all data right (`erase_augmented`).  A new node has any data when the
colours are repaired: apart from it the data stays right (`insertColor_partly`), and `propagate` from the node repairs the
rest (`OffAt.propagate`), also after a node got another value.
-/

namespace RbTree

variable {α β : Type*} {compute : α → Option β → Option β → β} {t u l r : Tree α β} {p q : Path α β} {v n : α} {a : β}
  {c : Color} {x y : Option β}

open Color Dir
open RbTree.Tree

def RotInvariant (compute : α → Option β → Option β → β) : Prop :=
  ∀ v w x y z, compute v (some (compute w x y)) z = compute w x (some (compute v y z))

theorem RotInvariant.at (h : RotInvariant compute) (d : Dir) (v w : α) (x y z : Option β) :
    computeAt compute d v (some (computeAt compute d w x y)) z = computeAt compute d w x (some (computeAt compute d v y z)) := by
  cases d
  · exact h v w x y z
  · exact (h w v z y x).symm

theorem computeAt_of_ne {d e : Dir} (h : d ≠ e) (v : α) (x y : Option β) :
    computeAt compute d v x y = computeAt compute e v y x := by
  cases d <;> cases e <;> first | rfl | exact absurd rfl h

theorem computeAt_near_far (compute : α → Option β → Option β → β) (d : Dir) (v : α) (l r : Tree α β) :
    computeAt compute d v (d.near l r).aug? (d.far l r).aug? = compute v l.aug? r.aug? := by
  cases d <;> rfl

/-! ### Paths -/

variable (compute) in
def AugPath : Option β → Path α β → Prop
  | _, [] => True
  | x, f :: p => f.aug = computeAt compute f.dir f.val x f.other.aug? ∧ Augmented compute f.other ∧ AugPath (some f.aug) p

@[simp] theorem aug?_build (d : Dir) (c : Color) (t : Tree α β) (v : α) (a : β) (u : Tree α β) :
    (build d c t v a u).aug? = some a := by
  cases d <;> rfl

theorem augmented_build {d : Dir} : Augmented compute (build d c t v a u) ↔
    a = computeAt compute d v t.aug? u.aug? ∧ Augmented compute t ∧ Augmented compute u := by
  cases d
  · exact Iff.rfl
  · exact and_congr_right fun _ => and_comm

theorem augmented_node (d : Dir) : Augmented compute (node c l v a r) ↔
    a = computeAt compute d v (d.near l r).aug? (d.far l r).aug? ∧ Augmented compute (d.near l r) ∧
      Augmented compute (d.far l r) := by
  rw [← build_near_far d, augmented_build]

theorem augmented_blacken : Augmented compute t.blacken ↔ Augmented compute t := by cases t <;> exact Iff.rfl

theorem augmented_plug : Augmented compute (plug t p) ↔ Augmented compute t ∧ AugPath compute t.aug? p := by
  induction p generalizing t with
  | nil => exact (and_iff_left trivial).symm
  | cons f p ih =>
    rw [plug_cons, ih, Frame.fill, augmented_build, aug?_build, AugPath]
    constructor
    · rintro ⟨⟨haug, ht, ho⟩, hp⟩
      exact ⟨ht, haug, ho, hp⟩
    · rintro ⟨ht, haug, ho, hp⟩
      exact ⟨⟨haug, ht, ho⟩, hp⟩

theorem augPath_append : AugPath compute t.aug? (p ++ q) ↔ AugPath compute t.aug? p ∧ AugPath compute (plug t p).aug? q := by
  induction p generalizing t with
  | nil => exact (and_iff_right trivial).symm
  | cons f p ih =>
    have hfill : (f.fill t).aug? = some f.aug := aug?_build ..
    rw [List.cons_append, AugPath, AugPath, plug_cons, ← hfill, ih, and_assoc, and_assoc]

theorem augPath_propagate_cons [DecidableEq β] {f : Frame α β} (ho : Augmented compute f.other)
    (hp : AugPath compute (some f.aug) p) (y : Option β) : AugPath compute y (propagate compute y (f :: p)) := by
  induction p generalizing f y with
  | nil =>
    rw [propagate]
    split
    · rename_i heq
      exact ⟨heq, ho, trivial⟩
    · exact ⟨rfl, ho, trivial⟩
  | cons g p ih =>
    rw [propagate]
    split
    · rename_i heq
      exact ⟨heq, ho, hp⟩
    · exact ⟨rfl, ho, ih hp.2.1 hp.2.2 _⟩

theorem AugPath.propagate [DecidableEq β] (h : AugPath compute x p) (y : Option β) :
    AugPath compute y (propagate compute y p) := by
  cases p with
  | nil => trivial
  | cons f p => exact augPath_propagate_cons h.2.1 h.2.2 y

/-! ### Removal -/

theorem eraseCases_augmented (hrot : RotInvariant compute) {d : Dir} (pc : Color) (pv : α) {sv : α} {pa sa : β}
    {near far : Tree α β} (ht : Augmented compute t) (hnear : Augmented compute near) (hfar : Augmented compute far)
    (hsa : sa = computeAt compute d sv near.aug? far.aug?) (hpa : pa = computeAt compute d pv t.aug? (some sa)) :
    Augmented compute (eraseCases compute d t pc pv pa near sv sa far).1 ∧
      (eraseCases compute d t pc pv pa near sv sa far).1.aug? = some pa := by
  unfold eraseCases
  split_ifs with hred
  · -- Case 4
    refine ⟨augmented_build.2 ⟨?_, augmented_build.2 ⟨rfl, ht, hnear⟩, augmented_blacken.2 hfar⟩, aug?_build ..⟩
    rw [aug?_build, aug?_blacken, hpa, hsa, hrot.at]
  · split
    · -- Case 3
      obtain ⟨hna, hn, hf⟩ := (augmented_node d).1 hnear
      refine ⟨augmented_build.2 ⟨?_, augmented_build.2 ⟨rfl, ht, hn⟩,
        augmented_build.2 ⟨by rw [aug?_blacken], augmented_blacken.2 hf, hfar⟩⟩, aug?_build ..⟩
      rw [aug?_build, aug?_build, hpa, hsa, aug?, hna, hrot.at, hrot.at]
    · refine ⟨augmented_build.2 ⟨?_, ht, augmented_build.2 ⟨hsa, hnear, hfar⟩⟩, aug?_build ..⟩
      rw [aug?_build, hpa]

theorem eraseColor_augmented (hrot : RotInvariant compute) (ht : Augmented compute t) (hp : AugPath compute t.aug? p)
    (h : eraseColor compute t p = some u) : Augmented compute u := by
  induction p generalizing t with
  | nil =>
    cases h
    exact ht
  | cons f p ih =>
    obtain ⟨haug, hother, hp⟩ := hp
    unfold eraseColor at h
    split at h
    · cases h
    · rename_i sl sv sa sr hnode
      rw [hnode] at hother haug
      obtain ⟨hsa, hn, hf⟩ := (augmented_node f.dir).1 hother
      obtain ⟨hs, htop⟩ := eraseCases_augmented hrot f.color f.val ht hn hf hsa haug
      dsimp only at h
      split_ifs at h
      · exact ih hs (htop ▸ hp) h
      · cases h
        exact augmented_plug.2 ⟨hs, htop ▸ hp⟩
    · -- the red sibling
      rename_i sl sv sa sr hnode
      rw [hnode] at hother haug
      obtain ⟨hsa, hn, hf⟩ := (augmented_node f.dir).1 hother
      split at h
      · cases h
      · rename_i nc nl nv na nr hnear
        cases h
        rw [hnear] at hsa hn
        obtain ⟨hna, hnn, hnf⟩ := (augmented_node f.dir).1 hn
        obtain ⟨hs, htop⟩ := eraseCases_augmented hrot red f.val ht hnn hnf hna rfl
        refine augmented_plug.2 ⟨augmented_build.2 ⟨?_, hs, hf⟩, (aug?_build ..).symm ▸ hp⟩
        rw [htop, hrot.at, haug, aug?, hsa]
        rfl

theorem plug_leftmost {sc : Color} {sv : α} {child : Tree α β} (h : leftmost c l v a r p = (sc, sv, child, q)) :
    ∃ sa, plug (node sc nil sv sa child) q = plug (node c l v a r) p := by
  induction l generalizing c v a r p with
  | nil =>
    cases h
    exact ⟨a, rfl⟩
  | node lc ll lv la lr ihl ihr => exact ihl h

theorem closeGap_augmented (hrot : RotInvariant compute) (ht : Augmented compute t) (hp : AugPath compute t.aug? p)
    (h : closeGap compute c t p = some u) : Augmented compute u := by
  unfold closeGap at h
  split at h
  · cases h
    exact augmented_plug.2 ⟨ht, hp⟩
  · split at h
    · exact eraseColor_augmented hrot ht hp h
    · cases h
      exact augmented_plug.2 ⟨ht, hp⟩

theorem erase_augmented [DecidableEq β] (hrot : RotInvariant compute) (hl : Augmented compute l) (hr : Augmented compute r)
    (hp : AugPath compute (some a) p) (h : erase compute c l a r p = some u) : Augmented compute u := by
  unfold erase at h
  split at h
  · exact closeGap_augmented (c := c) (t := nil) hrot trivial (hp.propagate none) h
  · cases h
    exact augmented_plug.2 ⟨hr, hp.propagate _⟩
  · cases h
    exact augmented_plug.2 ⟨hl, hp.propagate _⟩
  · rename_i rc rl rv ra rr _
    generalize hs : leftmost rc rl rv ra rr [] = s at h
    obtain ⟨sc, sv, child, inner⟩ := s
    obtain ⟨sa, hplug⟩ := plug_leftmost hs
    -- the successor is taken out of the right subtree
    have hright : Augmented compute (plug (node sc nil sv sa child) inner) := by
      rw [hplug]
      exact hr
    obtain ⟨⟨-, -, hchild⟩, hinner⟩ := augmented_plug.1 hright
    have hinner' := hinner.propagate child.aug?
    refine closeGap_augmented hrot hchild (augPath_append.2 ⟨hinner', ?_⟩) h
    exact augPath_propagate_cons hl hp _

/-! ### Insertion -/

variable (compute) in
/-- Apart from the nodes with the value `n` the data is right; `x` is what a parent takes for the data of the subtree, which
may be anything at such a node. -/
inductive Partly (n : α) : Tree α β → Option β → Prop
  | nil : Partly n nil none
  | hole {c : Color} {l r : Tree α β} {a : β} {x : Option β} :
      Partly n l l.aug? → Partly n r r.aug? → Partly n (node c l n a r) x
  | node {c : Color} {l r : Tree α β} {v : α} {x y : Option β} :
      Partly n l x → Partly n r y → Partly n (node c l v (compute v x y) r) (some (compute v x y))

theorem Augmented.partly (h : Augmented compute t) (n : α) : Partly compute n t t.aug? := by
  induction t with
  | nil => exact .nil
  | node c l v a r ihl ihr =>
    obtain ⟨rfl, hl, hr⟩ := h
    exact .node (ihl hl) (ihr hr)

theorem Partly.blacken (h : Partly compute n t x) : Partly compute n t.blacken x := by
  cases h with
  | nil => exact .nil
  | hole hl hr => exact .hole hl hr
  | node hl hr => exact .node hl hr

theorem Partly.build {d : Dir} (ht : Partly compute n t x) (hu : Partly compute n u y)
    (ha : a = computeAt compute d v x y) : Partly compute n (build d c t v a u) (some a) := by
  subst ha
  cases d
  · exact .node ht hu
  · exact .node hu ht

theorem Partly.hole_build {d : Dir} (ht : Partly compute n t t.aug?) (hu : Partly compute n u u.aug?) :
    Partly compute n (RbTree.build d c t n a u) x := by
  cases d
  · exact .hole ht hu
  · exact .hole hu ht

theorem Partly.plug (h : Partly compute n t x) (hp : AugPath compute x p) : ∃ y, Partly compute n (plug t p) y := by
  induction p generalizing t x with
  | nil => exact ⟨x, h⟩
  | cons f p ih =>
    obtain ⟨haug, ho, hp⟩ := hp
    exact ih (h.build (ho.partly n) haug) hp

def Seen (compute : α → Option β → Option β → β) (n : α) (l : Tree α β) (v : α) (a : β) (r : Tree α β) (x : Option β) : Prop :=
  Partly compute n l l.aug? ∧ Partly compute n r r.aug? ∧ (v = n ∨ a = compute v l.aug? r.aug? ∧ x = some a)

theorem Seen.partly (h : Seen compute n l v a r x) : Partly compute n (node c l v a r) x := by
  obtain ⟨hl, hr, rfl | ⟨rfl, rfl⟩⟩ := h
  · exact .hole hl hr
  · exact .node hl hr

theorem insertRotate_partly (hrot : RotInvariant compute) {f g : Frame α β} (h : Seen compute n l v a r x)
    (hf : f.aug = computeAt compute f.dir f.val x f.other.aug?) (hfo : Augmented compute f.other)
    (hg : g.aug = computeAt compute g.dir g.val (some f.aug) g.other.aug?) (hgo : Augmented compute g.other) :
    Partly compute n (insertRotate compute l v a r f g) (some g.aug) := by
  have hpartly : Partly compute n (node red l v a r) x := h.partly
  unfold insertRotate
  dsimp only
  split_ifs with hd
  · -- the node goes to the top: its data is the grandparent's, whatever it was before
    obtain ⟨hl, hr, hv⟩ := h
    obtain ⟨hnear, hfar⟩ : Partly compute n (g.dir.near l r) (g.dir.near l r).aug? ∧
        Partly compute n (g.dir.far l r) (g.dir.far l r).aug? := by
      cases g.dir
      · exact ⟨hl, hr⟩
      · exact ⟨hr, hl⟩
    have hparent := (hfo.partly n).build (c := red) (d := g.dir) (v := f.val) hnear.blacken rfl
    have hgparent := hfar.blacken.build (c := red) (d := g.dir) (v := g.val) (hgo.partly n) rfl
    rcases hv with rfl | ⟨ha, rfl⟩
    · refine .hole_build ?_ ?_
      · rw [aug?_build]
        exact hparent
      · rw [aug?_build]
        exact hgparent
    · refine hparent.build hgparent ?_
      rw [← computeAt_near_far compute g.dir] at ha
      rw [hg, hf, computeAt_of_ne hd, ha, ← hrot.at, hrot.at]
  · have hgparent := (hfo.partly n).blacken.build (c := red) (d := g.dir) (v := g.val) (hgo.partly n) rfl
    refine hpartly.build hgparent ?_
    rw [hg, hf, not_ne_iff.1 hd, hrot.at]

/-- Repairing the colours above a new node keeps the data right apart from the node, which may have any data. -/
theorem insertColor_partly (hrot : RotInvariant compute) (h : Seen compute n l v a r x) (hp : AugPath compute x p)
    (ht : insertColor compute l v a r p = some t) : ∃ y, Partly compute n t y := by
  fun_induction insertColor compute l v a r p generalizing x with
  | case1 l v a r =>
    cases ht
    exact ⟨x, h.partly⟩
  | case2 l v a r f hf =>
    cases ht
    exact h.partly.plug hp
  | case3 => cases ht
  | case4 l v a r f g p hf =>
    cases ht
    exact h.partly.plug hp
  | case5 l v a r f g p hf hu parent =>
    rename_i ih
    obtain ⟨hfa, hfo, hga, hgo, hp⟩ := hp
    refine ih ?_ hp ht
    have htop : parent.aug? = some f.aug := aug?_build ..
    have hparent : Partly compute n parent parent.aug? := by
      rw [htop]
      exact h.partly.build (hfo.partly n) hfa
    have huncle : Partly compute n g.other.blacken g.other.blacken.aug? := by
      rw [aug?_blacken]
      exact (hgo.partly n).blacken
    cases hd : g.dir <;> rw [hd, ← htop, ← aug?_blacken g.other] at hga
    · exact ⟨hparent, huncle, .inr ⟨hga, rfl⟩⟩
    · exact ⟨huncle, hparent, .inr ⟨hga, rfl⟩⟩
  | case6 l v a r f g p hf hu =>
    cases ht
    obtain ⟨hfa, hfo, hga, hgo, hp⟩ := hp
    exact (insertRotate_partly hrot h hfa hfo hga hgo).plug hp

/-! ### A node whose data is not right -/

theorem not_mem_frame {f : Frame α β} (hb : n ∉ before (f :: p)) (ha : n ∉ after (f :: p)) :
    f.val ≠ n ∧ n ∉ f.other.toList ∧ n ∉ before p ∧ n ∉ after p := by
  cases hd : f.dir <;> simp [before, after, hd] at hb ha <;> tauto

theorem Partly.augmented (h : Partly compute n t x) (hn : n ∉ t.toList) : Augmented compute t ∧ x = t.aug? := by
  induction h with
  | nil => exact ⟨trivial, rfl⟩
  | hole => simp at hn
  | node hl hr ihl ihr =>
    simp only [toList_node, List.mem_append, List.mem_cons, not_or] at hn
    obtain ⟨hl', rfl⟩ := ihl hn.1
    obtain ⟨hr', rfl⟩ := ihr hn.2.2
    exact ⟨⟨rfl, hl', hr'⟩, rfl⟩

theorem Partly.children (h : Partly compute n (Tree.node c l v a r) x) (hl : n ∉ l.toList) (hr : n ∉ r.toList) :
    Augmented compute l ∧ Augmented compute r := by
  cases h with
  | hole hl' hr' => exact ⟨(hl'.augmented hl).1, (hr'.augmented hr).1⟩
  | node hl' hr' => exact ⟨(hl'.augmented hl).1, (hr'.augmented hr).1⟩

theorem Partly.of_build {d : Dir} (h : Partly compute n (RbTree.build d c t v a u) x) (hv : v ≠ n) :
    ∃ y z, Partly compute n t y ∧ Partly compute n u z ∧ a = computeAt compute d v y z ∧ x = some a := by
  cases d with
  | left =>
    cases h with
    | hole => exact absurd rfl hv
    | node hl hr => exact ⟨_, _, hl, hr, rfl, rfl⟩
  | right =>
    cases h with
    | hole => exact absurd rfl hv
    | node hl hr => exact ⟨_, _, hr, hl, rfl, rfl⟩

theorem Partly.of_plug (h : Partly compute n (RbTree.plug t p) x) (hb : n ∉ before p) (ha : n ∉ after p) :
    ∃ y, Partly compute n t y ∧ AugPath compute y p := by
  induction p generalizing t with
  | nil => exact ⟨x, h, trivial⟩
  | cons f p ih =>
    obtain ⟨hval, hother, hb, ha⟩ := not_mem_frame hb ha
    obtain ⟨y, hy, hp⟩ := ih h hb ha
    obtain ⟨z, w, hz, hw, haug, rfl⟩ := hy.of_build hval
    obtain ⟨ho, rfl⟩ := hw.augmented hother
    exact ⟨z, hz, haug, ho, hp⟩

variable (compute) in
/-- The data is right apart from the node with the value `v`; what the nodes above take for its data is what it has, or else
`propagate` does not stop at it. -/
def OffAt [DecidableEq α] (v : α) (t : Tree α β) : Prop :=
  ∃ s x, locate v t [] = some s ∧ Augmented compute s.left ∧ Augmented compute s.right ∧ AugPath compute x s.path ∧
    (x = some s.aug ∨ s.aug ≠ compute s.val s.left.aug? s.right.aug?)

variable (compute) in
def ResizedAt [DecidableEq α] (v : α) (t : Tree α β) : Prop :=
  ∃ s, locate v t [] = some s ∧ Augmented compute s.left ∧ Augmented compute s.right ∧ AugPath compute (some s.aug) s.path

theorem ResizedAt.offAt [DecidableEq α] (h : ResizedAt compute v t) : OffAt compute v t := by
  obtain ⟨s, hs, hl, hr, hp⟩ := h
  exact ⟨s, _, hs, hl, hr, hp, .inl rfl⟩

theorem Augmented.place {s : Place α β} (h : Augmented compute s.tree) :
    Augmented compute s.left ∧ Augmented compute s.right ∧ AugPath compute (some s.aug) s.path := by
  obtain ⟨⟨-, hl, hr⟩, hp⟩ := augmented_plug.1 h
  exact ⟨hl, hr, hp⟩

theorem Augmented.resizedAt [DecidableEq α] (h : Augmented compute t) (hv : v ∈ t.toList) : ResizedAt compute v t := by
  obtain ⟨s, hs⟩ := exists_locate hv []
  obtain ⟨-, rfl⟩ := locate_eq_some hs
  exact ⟨s, hs, Augmented.place h⟩

theorem Place.augmented_propagate [DecidableEq β] {s : Place α β} (hl : Augmented compute s.left)
    (hr : Augmented compute s.right) (hp : AugPath compute x s.path)
    (hx : x = some s.aug ∨ s.aug ≠ compute s.val s.left.aug? s.right.aug?) :
    Augmented compute (s.propagate compute).tree := by
  unfold Place.propagate
  dsimp only
  split_ifs with haug
  · obtain rfl := hx.resolve_right (not_not_intro haug)
    exact augmented_plug.2 ⟨⟨haug, hl, hr⟩, hp⟩
  · exact augmented_plug.2 ⟨⟨rfl, hl, hr⟩, hp.propagate _⟩

/-! ### Finding a node -/

theorem locate_eq_none [DecidableEq α] (h : v ∉ t.toList) (p : Path α β) : locate v t p = none := by
  induction t generalizing p with
  | nil => rfl
  | node c l w a r ihl ihr =>
    simp only [toList_node, List.mem_append, List.mem_cons, not_or] at h
    rw [locate, if_neg (Ne.symm h.2.1), ihl h.1, ihr h.2.2]
    rfl

theorem locate_plug [DecidableEq α] (hb : v ∉ before p) (ha : v ∉ after p) (q : Path α β) :
    locate v (plug t p) q = locate v t (p ++ q) := by
  induction p generalizing t with
  | nil => rfl
  | cons f p ih =>
    obtain ⟨hval, hother, hb, ha⟩ := not_mem_frame hb ha
    rw [plug_cons, ih hb ha, List.cons_append, Frame.fill]
    obtain ⟨d, c, w, b, o⟩ := f
    cases d with
    | left => rw [build, locate, if_neg hval, locate_eq_none hother, Option.or_none]
    | right => rw [build, locate, if_neg hval, locate_eq_none hother, Option.none_or]

theorem Place.locate_tree [DecidableEq α] {s : Place α β} (hb : s.val ∉ before s.path) (ha : s.val ∉ after s.path) :
    locate s.val s.tree [] = some s := by
  rw [Place.tree, locate_plug hb ha, List.append_nil, Place.node, locate, if_pos rfl]

end RbTree
