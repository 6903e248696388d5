import Mathlib.Data.List.Basic
import Mathlib.Tactic.SplitIfs

/-!
# Augmented red-black trees

Red-black trees whose nodes carry, besides a value, data about their subtree that is computed from the value and from
the data of the two children.  A place in a tree is a subtree and the path from it up to the root, so that a loop which
follows parent pointers is a recursion on the path.

Insertion and removal are the bottom-up algorithms with rotation callbacks: `insertColor` and `eraseColor` repair the
colours upwards from a place, `erase` takes out a node.  They keep the values in order (`toList_insertColor`,
`toList_erase`) and, started in a red-black tree, follow no missing link and end in a red-black tree
(`insertColor_isRb`, `erase_isRb`).  The left and the right half of each algorithm are one definition over a direction.
-/

namespace RbTree

variable {α β : Type*}

inductive Color
  | red
  | black
deriving DecidableEq, Repr

inductive Dir
  | left
  | right
deriving DecidableEq, Repr

inductive Tree (α β : Type*)
  | nil
  | node (color : Color) (left : Tree α β) (val : α) (aug : β) (right : Tree α β)
deriving DecidableEq

structure Frame (α β : Type*) where
  dir : Dir
  color : Color
  val : α
  aug : β
  other : Tree α β

abbrev Path (α β : Type*) := List (Frame α β)

open Color Dir
open RbTree.Tree

def Dir.near {γ : Type*} (d : Dir) (l r : γ) : γ :=
  match d with
  | .left => l
  | .right => r

def Dir.far {γ : Type*} (d : Dir) (l r : γ) : γ := d.near r l

def build (d : Dir) (c : Color) (near : Tree α β) (v : α) (a : β) (far : Tree α β) : Tree α β :=
  match d with
  | .left => node c near v a far
  | .right => node c far v a near

namespace Tree

def toList : Tree α β → List α
  | nil => []
  | node _ l v _ r => l.toList ++ v :: r.toList

def aug? : Tree α β → Option β
  | nil => none
  | node _ _ _ a _ => some a

def isRed : Tree α β → Bool
  | node red _ _ _ _ => true
  | _ => false

def blacken : Tree α β → Tree α β
  | nil => nil
  | node _ l v a r => node black l v a r

end Tree

def Frame.fill (f : Frame α β) (t : Tree α β) : Tree α β := build f.dir f.color t f.val f.aug f.other

def plug (t : Tree α β) : Path α β → Tree α β
  | [] => t
  | f :: p => plug (f.fill t) p

structure Place (α β : Type*) where
  color : Color
  left : Tree α β
  val : α
  aug : β
  right : Tree α β
  path : Path α β

def Place.node (s : Place α β) : Tree α β := .node s.color s.left s.val s.aug s.right

def Place.tree (s : Place α β) : Tree α β := plug s.node s.path

def locate [DecidableEq α] (v : α) : Tree α β → Path α β → Option (Place α β)
  | nil, _ => none
  | .node c l x a r, p =>
    if x = v then some ⟨c, l, x, a, r, p⟩
    else (locate v l (⟨.left, c, x, a, r⟩ :: p)).or (locate v r (⟨.right, c, x, a, l⟩ :: p))

def before : Path α β → List α
  | [] => []
  | f :: p =>
    match f.dir with
    | .left => before p
    | .right => before p ++ (f.other.toList ++ [f.val])

def after : Path α β → List α
  | [] => []
  | f :: p =>
    match f.dir with
    | .left => f.val :: f.other.toList ++ after p
    | .right => after p

/-! ### The algorithms -/

section

variable (compute : α → Option β → Option β → β)

def computeAt (d : Dir) (v : α) (near far : Option β) : β :=
  match d with
  | .left => compute v near far
  | .right => compute v far near

/-- `propagate` from the parent upwards, after the data below it became `x`: it stops at the first node that need not
change. -/
def propagate [DecidableEq β] : Option β → Path α β → Path α β
  | _, [] => []
  | x, f :: p =>
    let max := computeAt compute f.dir f.val x f.other.aug?
    if f.aug = max then f :: p
    else { f with aug := max } :: propagate (some max) p

def Place.propagate [DecidableEq β] (s : Place α β) : Place α β :=
  let max := compute s.val s.left.aug? s.right.aug?
  if s.aug = max then s
  else { s with aug := max, path := RbTree.propagate compute (some max) s.path }

def Augmented : Tree α β → Prop
  | nil => True
  | node _ l v a r => a = compute v l.aug? r.aug? ∧ Augmented l ∧ Augmented r

def insertRotate (l : Tree α β) (v : α) (a : β) (r : Tree α β) (f g : Frame α β) : Tree α β :=
  let d := g.dir
  if f.dir ≠ d then
    -- the node is the inner child: it is rotated above its parent first and ends at the top
    let near := d.near l r
    let far := d.far l r
    let parent := build d red f.other f.val (computeAt compute d f.val f.other.aug? near.aug?) near.blacken
    let gparent := build d red far.blacken g.val (computeAt compute d g.val far.aug? g.other.aug?) g.other
    build d g.color parent v g.aug gparent
  else
    let gparent := build d red f.other.blacken g.val (computeAt compute d g.val f.other.aug? g.other.aug?) g.other
    build d g.color (node red l v a r) f.val g.aug gparent

/-- `__rb_insert` at a red node; `none` where a red node has no parent. -/
def insertColor (l : Tree α β) (v : α) (a : β) (r : Tree α β) : Path α β → Option (Tree α β)
  | [] => some (node black l v a r)
  | [f] => if f.color = black then some (plug (node red l v a r) [f]) else none
  | f :: g :: p =>
    if f.color = black then some (plug (node red l v a r) (f :: g :: p))
    else if g.other.isRed then
      -- Case 1: the colours are flipped, the grandparent is the red node of the next round
      let parent := { f with color := black }.fill (node red l v a r)
      insertColor (g.dir.near parent g.other.blacken) g.val g.aug (g.dir.far parent g.other.blacken) p
    else some (plug (insertRotate compute l v a r f g) p)

/-- Cases 2 to 4 of `____rb_erase_color` for a place on the side `d` of the parent `pc pv pa`, whose other child has the
children `near` and `far`; the flag says that the loop goes on above the parent. -/
def eraseCases (d : Dir) (t : Tree α β) (pc : Color) (pv : α) (pa : β) (near : Tree α β) (sv : α) (sa : β)
    (far : Tree α β) : Tree α β × Bool :=
  if far.isRed then
    -- Case 4
    (build d pc (build d black t pv (computeAt compute d pv t.aug? near.aug?) near) sv pa far.blacken, false)
  else
    match near with
    | node red nl nv _ nr =>
      -- Case 3, then 4: the inner child of the sibling ends at the top
      let sibling := build d black (d.far nl nr).blacken sv (computeAt compute d sv (d.far nl nr).aug? far.aug?) far
      (build d pc (build d black t pv (computeAt compute d pv t.aug? (d.near nl nr).aug?) (d.near nl nr)) nv pa sibling,
        false)
    | _ => (build d black t pv pa (build d red near sv sa far), pc = black)

/-- `____rb_erase_color` at a place one black node short; `none` where a sibling is missing. -/
def eraseColor : Tree α β → Path α β → Option (Tree α β)
  | t, [] => some t
  | t, f :: p =>
    match f.other with
    | nil => none
    | node black sl sv sa sr =>
      let s := eraseCases compute f.dir t f.color f.val f.aug (f.dir.near sl sr) sv sa (f.dir.far sl sr)
      if s.2 then eraseColor s.1 p else some (plug s.1 p)
    | node red sl sv _ sr =>
      -- Case 1: the red sibling is rotated above the parent, which is red then
      match f.dir.near sl sr with
      | nil => none
      | node _ nl nv na nr =>
        let s := eraseCases compute f.dir t red f.val (computeAt compute f.dir f.val t.aug? (some na)) (f.dir.near nl nr)
          nv na (f.dir.far nl nr)
        some (plug (build f.dir f.color s.1 sv f.aug (f.dir.far sl sr)) p)

def leftmost (c : Color) (l : Tree α β) (v : α) (a : β) (r : Tree α β) (p : Path α β) :
    Color × α × Tree α β × Path α β :=
  match l with
  | nil => (c, v, r, p)
  | node lc ll lv la lr => leftmost lc ll lv la lr (⟨.left, c, v, a, r⟩ :: p)

/-- The end of `__rb_erase_augmented` and the call of `__rb_erase_color`: a node of colour `c` without left child was
replaced by its right child `child`. -/
def closeGap (c : Color) (child : Tree α β) (p : Path α β) : Option (Tree α β) :=
  match child with
  | node _ l v a r => some (plug (node black l v a r) p)
  | nil => if c = black then eraseColor compute nil p else some (plug nil p)

/-- `rb_erase_augmented` of the node with colour `c`, children `l` and `r` and data `a`. -/
def erase [DecidableEq β] (c : Color) (l : Tree α β) (a : β) (r : Tree α β) (p : Path α β) : Option (Tree α β) :=
  match l, r with
  | nil, nil =>
    let p := propagate compute none p
    if c = black then eraseColor compute nil p else some (plug nil p)
  | nil, node _ rl rv ra rr => some (plug (node c rl rv ra rr) (propagate compute (some ra) p))
  | node _ ll lv la lr, nil => some (plug (node c ll lv la lr) (propagate compute (some la) p))
  | l, node rc rl rv ra rr =>
    let (sc, sv, child, inner) := leftmost rc rl rv ra rr []
    let inner := propagate compute child.aug? inner
    let successor : Frame α β := ⟨.right, c, sv, a, l⟩
    closeGap compute sc child (inner ++ propagate compute (plug child inner).aug? (successor :: p))

end

/-! ### The order of the values -/

section Order

variable {compute : α → Option β → Option β → β} {t u : Tree α β} {p q : Path α β}

@[simp] theorem toList_nil : (nil : Tree α β).toList = [] := rfl

@[simp] theorem toList_node (c : Color) (l : Tree α β) (v : α) (a : β) (r : Tree α β) :
    (node c l v a r).toList = l.toList ++ v :: r.toList := rfl

theorem eq_node_of_toList_eq_singleton {v : α} (h : t.toList = [v]) : ∃ c a, t = node c nil v a nil := by
  cases t with
  | nil => cases h
  | node c l x a r =>
    have hlen := congrArg List.length h
    cases l with
    | node =>
      simp at hlen
      omega
    | nil =>
      cases r with
      | node =>
        simp at hlen
      | nil =>
        cases h
        exact ⟨c, a, rfl⟩

@[simp] theorem toList_blacken (t : Tree α β) : t.blacken.toList = t.toList := by cases t <;> rfl

@[simp] theorem aug?_blacken (t : Tree α β) : t.blacken.aug? = t.aug? := by cases t <;> rfl

@[simp] theorem before_nil : before ([] : Path α β) = [] := rfl

@[simp] theorem after_nil : after ([] : Path α β) = [] := rfl

theorem plug_cons (t : Tree α β) (f : Frame α β) (p : Path α β) : plug t (f :: p) = plug (f.fill t) p := rfl

theorem toList_plug (t : Tree α β) (p : Path α β) : (plug t p).toList = before p ++ t.toList ++ after p := by
  induction p generalizing t with
  | nil => simp [plug]
  | cons f p ih =>
    rw [plug_cons, ih]
    cases hd : f.dir <;> simp [Frame.fill, build, before, after, hd]

theorem Place.toList_tree (s : Place α β) :
    s.tree.toList = before s.path ++ (s.left.toList ++ s.val :: s.right.toList) ++ after s.path := toList_plug ..

theorem Place.toList_split (s : Place α β) :
    s.tree.toList = (before s.path ++ s.left.toList) ++ s.val :: (s.right.toList ++ after s.path) := by
  rw [Place.toList_tree]
  simp

theorem Place.val_mem (s : Place α β) : s.val ∈ s.tree.toList := by
  rw [Place.toList_split]
  simp

theorem before_append (p q : Path α β) : before (p ++ q) = before q ++ before p := by
  induction p with
  | nil => simp
  | cons f p ih => cases hd : f.dir <;> simp [before, hd, ih]

theorem after_append (p q : Path α β) : after (p ++ q) = after p ++ after q := by
  induction p with
  | nil => simp
  | cons f p ih => cases hd : f.dir <;> simp [after, hd, ih]

theorem before_propagate [DecidableEq β] (x : Option β) (p : Path α β) :
    before (propagate compute x p) = before p := by
  induction p generalizing x with
  | nil => rfl
  | cons f p ih =>
    rw [propagate]
    split
    · rfl
    · cases hd : f.dir <;> simp [before, hd, ih]

theorem after_propagate [DecidableEq β] (x : Option β) (p : Path α β) :
    after (propagate compute x p) = after p := by
  induction p generalizing x with
  | nil => rfl
  | cons f p ih =>
    rw [propagate]
    split
    · rfl
    · cases hd : f.dir <;> simp [after, hd, ih]

variable (compute) in
theorem Place.propagate_fields [DecidableEq β] (s : Place α β) :
    (s.propagate compute).val = s.val ∧ (s.propagate compute).left = s.left ∧ (s.propagate compute).right = s.right ∧
      before (s.propagate compute).path = before s.path ∧ after (s.propagate compute).path = after s.path := by
  unfold Place.propagate
  dsimp only
  split_ifs
  · exact ⟨rfl, rfl, rfl, rfl, rfl⟩
  · exact ⟨rfl, rfl, rfl, before_propagate .., after_propagate ..⟩

theorem Place.toList_propagate [DecidableEq β] (s : Place α β) :
    (s.propagate compute).tree.toList = s.tree.toList := by
  obtain ⟨hval, hleft, hright, hbefore, hafter⟩ := s.propagate_fields compute
  rw [Place.toList_tree, Place.toList_tree, hval, hleft, hright, hbefore, hafter]

theorem locate_eq_some [DecidableEq α] {v : α} {s : Place α β} (h : locate v t p = some s) :
    s.val = v ∧ s.tree = plug t p := by
  induction t generalizing p with
  | nil => cases h
  | node c l x a r ihl ihr =>
    unfold locate at h
    split_ifs at h with hx
    · cases h
      exact ⟨hx, rfl⟩
    · obtain h | ⟨-, h⟩ := Option.or_eq_some_iff.1 h
      · exact ihl h
      · exact ihr h

theorem exists_locate [DecidableEq α] {v : α} (h : v ∈ t.toList) (p : Path α β) : ∃ s, locate v t p = some s := by
  induction t generalizing p with
  | nil => cases h
  | node c l x a r ihl ihr =>
    unfold locate
    split_ifs with hx
    · exact ⟨_, rfl⟩
    · rw [toList_node, List.mem_append, List.mem_cons] at h
      rcases h with h | h | h
      · obtain ⟨s, hs⟩ := ihl h (⟨.left, c, x, a, r⟩ :: p)
        exact ⟨s, by rw [hs, Option.some_or]⟩
      · exact absurd h.symm hx
      · obtain ⟨s, hs⟩ := ihr h (⟨.right, c, x, a, l⟩ :: p)
        rw [hs]
        cases locate v l (⟨.left, c, x, a, r⟩ :: p) <;> exact ⟨_, rfl⟩

def around (p : Path α β) (l : List α) : List α := before p ++ l ++ after p

theorem toList_insertRotate (l : Tree α β) (v : α) (a : β) (r : Tree α β) (f g : Frame α β) :
    (insertRotate compute l v a r f g).toList = (plug (node red l v a r) [f, g]).toList := by
  cases hf : f.dir <;> cases hg : g.dir <;>
    simp [insertRotate, plug, Frame.fill, build, Dir.near, Dir.far, hf, hg]

theorem around_cons (f : Frame α β) (p : Path α β) (t : Tree α β) :
    around (f :: p) t.toList = around p (f.fill t).toList := by
  rw [around, around, ← toList_plug, ← toList_plug, plug_cons]

theorem toList_insertColor {l r : Tree α β} {v : α} {a : β} (h : insertColor compute l v a r p = some t) :
    t.toList = around p (node red l v a r).toList := by
  fun_induction insertColor compute l v a r p with
  | case1 l v a r =>
    cases h
    simp [around]
  | case2 l v a r f hf =>
    cases h
    rw [toList_plug, around]
  | case3 => cases h
  | case4 l v a r f g p hf =>
    cases h
    rw [toList_plug, around]
  | case5 l v a r f g p hf hg parent ih =>
    rw [ih h, around_cons, around_cons]
    cases hgd : g.dir <;> cases hfd : f.dir <;> simp [parent, Frame.fill, build, Dir.near, Dir.far, hfd, hgd]
  | case6 l v a r f g p hf hg =>
    cases h
    rw [toList_plug, toList_insertRotate, around_cons, around_cons]
    rfl

@[simp] theorem build_near_far (d : Dir) (c : Color) (l : Tree α β) (v : α) (a : β) (r : Tree α β) :
    build d c (d.near l r) v a (d.far l r) = node c l v a r := by
  cases d <;> rfl

variable (compute) in
theorem toList_eraseCases (d : Dir) (t : Tree α β) (pc : Color) (pv : α) (pa : β) (near : Tree α β) (sv : α) (sa : β)
    (far : Tree α β) :
    (eraseCases compute d t pc pv pa near sv sa far).1.toList = (build d pc t pv pa (build d red near sv sa far)).toList := by
  unfold eraseCases
  split_ifs with hfar
  · cases d <;> simp [build]
  · split <;> cases d <;> simp [build, Dir.near, Dir.far]

theorem toList_eraseColor (h : eraseColor compute t p = some u) : u.toList = around p t.toList := by
  induction p generalizing t with
  | nil =>
    cases h
    simp [around]
  | cons f p ih =>
    rw [around_cons]
    unfold eraseColor at h
    split at h
    · cases h
    · rename_i sl sv sa sr hother
      have hlist := toList_eraseCases compute f.dir t f.color f.val f.aug (f.dir.near sl sr) sv sa
        (f.dir.far sl sr)
      dsimp only at h
      have hfill : (f.fill t).toList = (build f.dir f.color t f.val f.aug (node red sl sv sa sr)).toList := by
        cases hd : f.dir <;> simp [Frame.fill, build, hd, hother]
      rw [build_near_far, ← hfill] at hlist
      split_ifs at h
      · rw [ih h, hlist]
      · cases h
        rw [toList_plug, hlist, around]
    · -- the red sibling
      rename_i sl sv sa sr hother
      split at h
      · cases h
      · rename_i nc nl nv na nr hnear
        cases h
        rw [toList_plug, around]
        have hlist := toList_eraseCases compute f.dir t red f.val
          (computeAt compute f.dir f.val t.aug? (some na)) (f.dir.near nl nr) nv na (f.dir.far nl nr)
        rw [build_near_far] at hlist
        cases hd : f.dir <;> rw [hd] at hlist hnear <;> simp only [Dir.near, Dir.far] at hlist hnear <;> subst hnear <;>
          simp [build, Frame.fill, hd, hlist, hother, Dir.far, Dir.near]

theorem toList_leftmost {c sc : Color} {l r child : Tree α β} {v sv : α} {a : β}
    (h : leftmost c l v a r p = (sc, sv, child, q)) :
    before q = before p ∧ sv :: child.toList ++ after q = l.toList ++ v :: r.toList ++ after p := by
  induction l generalizing c v a r p with
  | nil =>
    cases h
    simp
  | node lc ll lv la lr ihl ihr =>
    obtain ⟨hb, ha⟩ := ihl h
    refine ⟨hb, ha.trans ?_⟩
    simp [after]

theorem toList_closeGap {c : Color} (h : closeGap compute c t p = some u) : u.toList = around p t.toList := by
  unfold closeGap at h
  split at h
  · cases h
    rw [toList_plug, around]
    rfl
  · split at h
    · exact toList_eraseColor h
    · cases h
      rw [toList_plug, around]

theorem toList_erase [DecidableEq β] {c : Color} {l r : Tree α β} {a : β} (h : erase compute c l a r p = some u) :
    u.toList = around p (l.toList ++ r.toList) := by
  unfold erase at h
  split at h
  · have hlist : ∀ q : Path α β, around (propagate compute none q) [] = around q [] := fun q => by
      rw [around, around, before_propagate, after_propagate]
    dsimp only at h
    split at h
    · exact (toList_eraseColor h).trans (hlist p)
    · cases h
      rw [toList_plug]
      exact hlist p
  · cases h
    rw [toList_plug, before_propagate, after_propagate, around]
    simp
  · cases h
    rw [toList_plug, before_propagate, after_propagate, around]
    simp
  · rename_i rc rl rv ra rr _
    generalize hs : leftmost rc rl rv ra rr [] = s at h
    obtain ⟨sc, sv, child, inner⟩ := s
    obtain ⟨hb, ha⟩ := toList_leftmost hs
    rw [toList_closeGap h, around, before_append, after_append, before_propagate, after_propagate, before_propagate,
      after_propagate, hb]
    simp only [before, after, List.append_nil, List.append_assoc] at ha ⊢
    rw [around, toList_node, ← ha]
    simp

end Order

/-! ### The colours -/

section Balance

variable {compute : α → Option β → Option β → β} {t u l r : Tree α β} {p q : Path α β} {c : Color} {n : ℕ} {v : α} {a : β}

/-- `Bal t c n`: the root has colour `c`, no red node has a red child and every way down has `n` black nodes. -/
inductive Bal : Tree α β → Color → ℕ → Prop
  | leaf : Bal nil black 0
  | redNode {l r : Tree α β} {v : α} {a : β} {n : ℕ} : Bal l black n → Bal r black n → Bal (node red l v a r) red n
  | blackNode {l r : Tree α β} {v : α} {a : β} {c c' : Color} {n : ℕ} :
      Bal l c n → Bal r c' n → Bal (node black l v a r) black (n + 1)

def IsRb (t : Tree α β) : Prop := ∃ n, Bal t black n

inductive Fits : Path α β → Color → ℕ → Prop
  | root {n : ℕ} : Fits [] black n
  | belowRed {f : Frame α β} {p : Path α β} {n : ℕ} :
      f.color = red → Bal f.other black n → Fits p red n → Fits (f :: p) black n
  | belowBlack {f : Frame α β} {p : Path α β} {c c' : Color} {n : ℕ} :
      f.color = black → Bal f.other c' n → Fits p black (n + 1) → Fits (f :: p) c n

theorem Bal.build_black {d : Dir} {c' : Color} (h : Bal l c n) (h' : Bal r c' n) : Bal (build d black l v a r) black (n + 1) := by
  cases d
  · exact .blackNode h h'
  · exact .blackNode h' h

theorem Bal.build_red {d : Dir} (h : Bal l black n) (h' : Bal r black n) : Bal (build d red l v a r) red n := by
  cases d
  · exact .redNode h h'
  · exact .redNode h' h

/-- A node between two subtrees of one height, whose root may be red where a red tree fits. -/
theorem Bal.isRb_plug (h : Bal t c n) (hp : Fits p c n) : IsRb (plug t p) := by
  induction hp generalizing t with
  | root => exact ⟨_, h⟩
  | @belowRed f p n hf ho _ ih =>
    apply ih
    rw [Frame.fill, hf]
    exact h.build_red ho
  | @belowBlack f p c c' n hf ho _ ih =>
    apply ih
    rw [Frame.fill, hf]
    exact h.build_black ho

theorem IsRb.place (h : IsRb (plug t p)) : ∃ c n, Bal t c n ∧ Fits p c n := by
  induction p generalizing t with
  | nil =>
    obtain ⟨n, hn⟩ := h
    exact ⟨black, n, hn, .root⟩
  | cons f p ih =>
    obtain ⟨c, n, hfill, hp⟩ := ih h
    cases hd : f.dir <;> rw [Frame.fill, hd] at hfill <;> generalize hc : f.color = fc at hfill <;> cases hfill
    · rename_i ht ho
      exact ⟨_, _, ht, .belowRed hc ho hp⟩
    · rename_i ht ho
      exact ⟨_, _, ht, .belowBlack hc ho hp⟩
    · rename_i ho ht
      exact ⟨_, _, ht, .belowRed hc ho hp⟩
    · rename_i ho ht
      exact ⟨_, _, ht, .belowBlack hc ho hp⟩

theorem Fits.to_black (h : Fits p c n) : Fits p black n := by
  cases h with
  | root => exact .root
  | belowRed hf ho hp => exact .belowRed hf ho hp
  | belowBlack hf ho hp => exact .belowBlack hf ho hp

theorem Bal.blacken_of_black (h : Bal t black n) : t.blacken = t := by
  cases h <;> rfl

theorem Bal.not_isRed (h : Bal t black n) : t.isRed = false := by
  cases h <;> rfl

theorem Bal.eq_red (h : Bal t c n) (hred : t.isRed = true) : c = red := by
  cases h with
  | leaf => cases hred
  | redNode => rfl
  | blackNode => cases hred

theorem Bal.eq_black (h : Bal t c n) (hred : t.isRed = false) : c = black := by
  cases h with
  | leaf => rfl
  | redNode => cases hred
  | blackNode => rfl

theorem Bal.black_of_red (h : Bal t red n) : Bal t.blacken black (n + 1) := by
  cases h with
  | redNode hl hr => exact .blackNode hl hr

theorem Bal.near_far (h : Bal l c n) (h' : Bal r c n) (d : Dir) : Bal (d.near l r) c n ∧ Bal (d.far l r) c n := by
  cases d
  · exact ⟨h, h'⟩
  · exact ⟨h', h⟩

theorem Bal.children {c' : Color} (h : Bal (node c l v a r) c' (n + 1)) (hc : c = black) (d : Dir) :
    (∃ k, Bal (d.near l r) k n) ∧ ∃ k, Bal (d.far l r) k n := by
  subst hc
  cases h with
  | blackNode hl hr =>
    cases d
    · exact ⟨⟨_, hl⟩, _, hr⟩
    · exact ⟨⟨_, hr⟩, _, hl⟩

theorem Bal.insertRotate {f g : Frame α β} (h : Bal (node red l v a r) red n) (hf : Bal f.other black n)
    (hg : g.color = black) (hgo : Bal g.other black n) : Bal (insertRotate compute l v a r f g) black (n + 1) := by
  obtain ⟨hnear, hfar⟩ : Bal (g.dir.near l r) black n ∧ Bal (g.dir.far l r) black n := by
    cases h with
    | redNode hl hr => exact hl.near_far hr g.dir
  unfold RbTree.insertRotate
  dsimp only
  rw [hg, hnear.blacken_of_black, hfar.blacken_of_black, hf.blacken_of_black]
  split_ifs
  · exact (hf.build_red hnear).build_black (hfar.build_red hgo)
  · exact h.build_black (hf.build_red hgo)

variable (compute) in
theorem insertColor_isRb (ht : Bal (node red l v a r) red n) (hp : Fits p black n) :
    ∃ t, insertColor compute l v a r p = some t ∧ IsRb t := by
  fun_induction insertColor compute l v a r p generalizing n with
  | case1 l v a r =>
    cases ht with
    | redNode hl hr => exact ⟨_, rfl, _, .blackNode hl hr⟩
  | case2 l v a r f hf =>
    refine ⟨_, rfl, ht.isRb_plug ?_⟩
    cases hp with
    | belowRed hred => simp [hf] at hred
    | belowBlack _ ho hp => exact .belowBlack hf ho hp
  | case3 l v a r f hf =>
    cases hp with
    | belowRed _ _ hp => nomatch hp
    | belowBlack hb => exact absurd hb hf
  | case4 l v a r f g p hf =>
    refine ⟨_, rfl, ht.isRb_plug ?_⟩
    cases hp with
    | belowRed hred => simp [hf] at hred
    | belowBlack _ ho hp => exact .belowBlack hf ho hp
  | case5 l v a r f g p hf hu parent =>
    rename_i ih
    cases hp with
    | belowBlack hb => exact absurd hb hf
    | belowRed _ ho hp =>
      cases hp with
      | belowBlack hg hgo hq =>
        obtain rfl := hgo.eq_red hu
        have hparent : Bal parent black (n + 1) := ht.build_black ho
        refine ih ?_ hq
        cases g.dir
        · exact .redNode hparent hgo.black_of_red
        · exact .redNode hgo.black_of_red hparent
  | case6 l v a r f g p hf hu =>
    cases hp with
    | belowBlack hb => exact absurd hb hf
    | belowRed _ ho hp =>
      cases hp with
      | belowBlack hg hgo hq =>
        obtain rfl := hgo.eq_black (by simpa using hu)
        exact ⟨_, rfl, (ht.insertRotate ho hg hgo).isRb_plug hq⟩

/-- What the cases of the removal leave: the flag is set where the subtree is still one black node short. -/
theorem eraseCases_bal {d : Dir} {pc cn cf : Color} {pv sv : α} {pa sa : β} {near far : Tree α β} (ht : Bal t black n)
    (hnear : Bal near cn n) (hfar : Bal far cf n) {s : Tree α β × Bool}
    (hs : eraseCases compute d t pc pv pa near sv sa far = s) :
    s.2 = true ∧ pc = black ∧ Bal s.1 black (n + 1) ∨
      s.2 = false ∧ (pc = black → Bal s.1 black (n + 2)) ∧ (pc = red → ∃ c, Bal s.1 c (n + 1)) := by
  have htop : ∀ {x y : Tree α β} {v : α} {a : β}, Bal x black (n + 1) → Bal y black (n + 1) →
      (pc = black → Bal (build d pc x v a y) black (n + 2)) ∧ (pc = red → ∃ c, Bal (build d pc x v a y) c (n + 1)) := by
    intro x y v a hx hy
    refine ⟨?_, ?_⟩
    · rintro rfl
      exact hx.build_black hy
    · rintro rfl
      exact ⟨_, hx.build_red hy⟩
  unfold eraseCases at hs
  split_ifs at hs with hred
  · -- Case 4
    subst hs
    obtain rfl := hfar.eq_red hred
    exact .inr ⟨rfl, htop (ht.build_black hnear) hfar.black_of_red⟩
  · obtain rfl := hfar.eq_black (by simpa using hred)
    split at hs
    · -- Case 3
      subst hs
      obtain rfl := hnear.eq_red rfl
      cases hnear with
      | redNode hl hr =>
        obtain ⟨hn, hf⟩ := hl.near_far hr d
        rw [hf.blacken_of_black]
        exact .inr ⟨rfl, htop (ht.build_black hn) (hf.build_black hfar)⟩
    · -- Case 2
      rename_i hnotred
      subst hs
      obtain rfl : cn = black := by
        cases hnear with
        | leaf => rfl
        | redNode => exact (hnotred _ _ _ _ rfl).elim
        | blackNode => rfl
      have hbal : Bal (build d black t pv pa (build d red near sv sa far)) black (n + 1) :=
        ht.build_black (hnear.build_red hfar)
      cases pc
      · exact .inr ⟨by simp, by simp, fun _ => ⟨_, hbal⟩⟩
      · exact .inl ⟨by simp, rfl, hbal⟩

theorem eraseColor_isRb (ht : Bal t black n) (hp : Fits p black (n + 1)) :
    ∃ u, eraseColor compute t p = some u ∧ IsRb u := by
  induction p generalizing t n with
  | nil => exact ⟨t, rfl, n, ht⟩
  | cons f p ih =>
    unfold eraseColor
    cases hp with
    | belowRed hf ho hp =>
      generalize hother : f.other = o at ho
      cases ho with
      | blackNode hl hr =>
        obtain ⟨⟨_, hnear⟩, _, hfar⟩ := (Bal.blackNode (v := f.val) (a := f.aug) hl hr).children rfl f.dir
        dsimp only
        generalize hs : eraseCases compute f.dir t f.color f.val f.aug _ _ _ _ = s
        obtain ⟨-, hc, -⟩ | ⟨hup, -, hbal⟩ := eraseCases_bal ht hnear hfar hs
        · simp [hf] at hc
        · obtain ⟨c, hbal⟩ := hbal hf
          refine ⟨_, by rw [if_neg (by simp [hup])], hbal.isRb_plug ?_⟩
          cases c
          · exact hp
          · exact hp.to_black
    | belowBlack hf ho hp =>
      generalize hother : f.other = o at ho
      cases ho with
      | blackNode hl hr =>
        obtain ⟨⟨_, hnear⟩, _, hfar⟩ := (Bal.blackNode (v := f.val) (a := f.aug) hl hr).children rfl f.dir
        dsimp only
        generalize hs : eraseCases compute f.dir t f.color f.val f.aug _ _ _ _ = s
        obtain ⟨hup, -, hbal⟩ | ⟨hup, hbal, -⟩ := eraseCases_bal ht hnear hfar hs
        · rw [if_pos hup]
          exact ih hbal hp
        · rw [if_neg (by simp [hup])]
          exact ⟨_, rfl, (hbal hf).isRb_plug hp⟩
      | redNode hl hr =>
        obtain ⟨hnear, hfar⟩ := hl.near_far hr f.dir
        dsimp only
        generalize hnode : f.dir.near _ _ = near at hnear
        cases hnear with
        | blackNode hnl hnr =>
          obtain ⟨⟨_, hnn⟩, _, hnf⟩ := (Bal.blackNode (v := f.val) (a := f.aug) hnl hnr).children rfl f.dir
          dsimp only
          generalize hs : eraseCases compute f.dir t red f.val _ _ _ _ _ = s
          obtain ⟨-, hc, -⟩ | ⟨-, -, hbal⟩ := eraseCases_bal ht hnn hnf hs
          · cases hc
          · obtain ⟨c, hbal⟩ := hbal rfl
            refine ⟨_, rfl, Bal.isRb_plug ?_ hp⟩
            rw [hf]
            exact hbal.build_black hfar

def Frame.shape (f : Frame α β) : Color × Tree α β := (f.color, f.other)

theorem Fits.congr (hp : Fits p c n) (h : p.map Frame.shape = q.map Frame.shape) : Fits q c n := by
  induction hp generalizing q with
  | root =>
    obtain rfl := List.map_eq_nil_iff.1 h.symm
    exact .root
  | belowRed hf ho _ ih =>
    obtain ⟨g, q, rfl, hg, hq⟩ := List.map_eq_cons_iff.1 h.symm
    simp only [Frame.shape, Prod.mk.injEq] at hg
    exact .belowRed (hg.1.trans hf) (hg.2 ▸ ho) (ih hq.symm)
  | belowBlack hf ho _ ih =>
    obtain ⟨g, q, rfl, hg, hq⟩ := List.map_eq_cons_iff.1 h.symm
    simp only [Frame.shape, Prod.mk.injEq] at hg
    exact .belowBlack (hg.1.trans hf) (hg.2 ▸ ho) (ih hq.symm)

theorem map_shape_propagate [DecidableEq β] (x : Option β) (p : Path α β) :
    (propagate compute x p).map Frame.shape = p.map Frame.shape := by
  induction p generalizing x with
  | nil => rfl
  | cons f p ih =>
    unfold propagate
    dsimp only
    split_ifs
    · rfl
    · rw [List.map_cons, List.map_cons, ih]
      rfl

theorem leftmost_append {c : Color} {l r : Tree α β} {v : α} {a : β} (p q : Path α β) :
    leftmost c l v a r (p ++ q) =
      ((leftmost c l v a r p).1, (leftmost c l v a r p).2.1, (leftmost c l v a r p).2.2.1,
        (leftmost c l v a r p).2.2.2 ++ q) := by
  induction l generalizing c v a r p with
  | nil => rfl
  | node lc ll lv la lr ihl ihr => exact ihl (⟨.left, c, v, a, r⟩ :: p)

theorem Bal.retag {c' : Color} (h : Bal (node c l v a r) c' n) (v' : α) (a' : β) : Bal (node c l v' a' r) c' n := by
  cases h with
  | redNode hl hr => exact .redNode hl hr
  | blackNode hl hr => exact .blackNode hl hr

theorem leftmost_fits {c' sc : Color} {child : Tree α β} {sv : α} (ht : Bal (node c l v a r) c' n) (hp : Fits p c' n)
    (h : leftmost c l v a r p = (sc, sv, child, q)) : ∃ k m, Bal (node sc nil sv a child) k m ∧ Fits q k m := by
  induction l generalizing c v a r p c' n with
  | nil =>
    cases h
    exact ⟨_, _, ht, hp⟩
  | node lc ll lv la lr ihl ihr =>
    cases ht with
    | redNode hl hr =>
      obtain ⟨k, m, hbal, hq⟩ := ihl hl (.belowRed rfl hr hp) h
      exact ⟨k, m, hbal.retag sv a, hq⟩
    | blackNode hl hr =>
      obtain ⟨k, m, hbal, hq⟩ := ihl hl (.belowBlack rfl hr hp) h
      exact ⟨k, m, hbal.retag sv a, hq⟩

theorem closeGap_isRb {c' : Color} {child : Tree α β} (ht : Bal (node c nil v a child) c' n) (hp : Fits p c' n) :
    ∃ u, closeGap compute c child p = some u ∧ IsRb u := by
  unfold closeGap
  cases ht with
  | redNode hl hr =>
    cases hl
    cases hr with
    | leaf => exact ⟨_, rfl, Bal.leaf.isRb_plug hp.to_black⟩
  | blackNode hl hr =>
    cases hl
    cases hr with
    | leaf => exact eraseColor_isRb .leaf hp
    | redNode h h' => exact ⟨_, rfl, (Bal.blackNode h h').isRb_plug hp⟩

variable (compute) in
theorem erase_isRb [DecidableEq β] {c' : Color} (ht : Bal (node c l v a r) c' n) (hp : Fits p c' n) :
    ∃ u, erase compute c l a r p = some u ∧ IsRb u := by
  have hfits : ∀ x, Fits (propagate compute x p) c' n := fun x => hp.congr (map_shape_propagate x p).symm
  cases l with
  | nil =>
    cases r with
    | nil => exact closeGap_isRb ht (hfits none)
    | node rc rl rv ra rr =>
      cases ht with
      | redNode hl hr =>
        cases hl
        nomatch hr
      | blackNode hl hr =>
        cases hl
        cases hr with
        | redNode h h' => exact ⟨_, rfl, (Bal.blackNode h h').isRb_plug (hfits _)⟩
  | node lc ll lv la lr =>
    cases r with
    | nil =>
      cases ht with
      | redNode hl hr =>
        cases hr
        nomatch hl
      | blackNode hl hr =>
        cases hr
        cases hl with
        | redNode h h' => exact ⟨_, rfl, (Bal.blackNode h h').isRb_plug (hfits _)⟩
    | node rc rl rv ra rr =>
      generalize hs : leftmost rc rl rv ra rr [] = s
      obtain ⟨sc, sv, child, inner⟩ := s
      -- the successor takes the place of the node; the gap is where the successor was
      have hright : ∃ k m, Bal (node rc rl rv ra rr) k m ∧ Fits (⟨.right, c, sv, a, node lc ll lv la lr⟩ :: p) k m := by
        cases ht with
        | redNode hl hr => exact ⟨_, _, hr, .belowRed rfl hl hp⟩
        | blackNode hl hr => exact ⟨_, _, hr, .belowBlack rfl hl hp⟩
      obtain ⟨k, m, hr, hsucc⟩ := hright
      have hplace := leftmost_append (c := rc) (l := rl) (v := rv) (a := ra) (r := rr) []
        (⟨.right, c, sv, a, node lc ll lv la lr⟩ :: p)
      rw [hs, List.nil_append] at hplace
      obtain ⟨k', m', hgap, hinner⟩ := leftmost_fits hr hsucc hplace
      unfold erase
      dsimp only
      rw [hs]
      refine closeGap_isRb hgap (hinner.congr ?_)
      rw [List.map_append, List.map_append, map_shape_propagate, map_shape_propagate]

theorem Place.isRb_retag {s : Place α β} (h : IsRb s.tree) (v : α) (a : β) : IsRb ({ s with val := v, aug := a } : Place α β).tree := by
  obtain ⟨c, n, ht, hp⟩ := h.place
  exact (ht.retag v a).isRb_plug hp

theorem Place.isRb_propagate [DecidableEq β] {s : Place α β} (h : IsRb s.tree) : IsRb (s.propagate compute).tree := by
  unfold Place.propagate
  dsimp only
  split_ifs
  · exact h
  · obtain ⟨c, n, ht, hp⟩ := h.place
    exact (ht.retag _ _).isRb_plug (hp.congr (map_shape_propagate _ _).symm)

end Balance

end RbTree
