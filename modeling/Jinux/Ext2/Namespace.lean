import Jinux.Ext2.Dir
import Jinux.Lib.Table

/-!
# Link counts of a namespace

The inodes of a file system without their content: each has a number, a type, a count of links, and
if it is a directory the entries other than `"."` and `".."`.

* `Namespace.Law` : a file has as many links as there are entries that name it; a directory that is
  the root or is named has two links and one for each subdirectory; a directory that was removed has
  none.  An entry that was taken from one directory and is not yet in another one, or whose inode
  has not yet lost the link, is in `flying` and counts as if it were in a directory.
* `Law.create`, `Law.link`, `Law.take`, `Law.put`, `Law.rename`, `Law.dropFile`, `Law.dropDir` :
  the steps that the operations on directories are made of keep the law.
-/

namespace Jinux

open List Table
open Multiset (add_cons)

/-- An entry of a directory: a name, and the number and the type of an inode. -/
structure Child where
  name : List UInt8
  ino : ℕ
  type : Result FileType

/-- An inode as others see it. -/
structure Node where
  ino : ℕ
  type : FileType
  count : ℕ
  /-- The entries of a directory, without `"."` and `".."`. -/
  kids : Multiset Child

/-- The links that an entry is worth for the directory it stands in: that of `".."`. -/
def Child.dirLinks (c : Child) : ℕ := if c.type = .ok .dir then 1 else 0

/-- The number of subdirectories. -/
def Node.subdirs (x : Node) : ℕ := x.kids.countP fun c => c.type = .ok .dir

namespace Namespace

/-- All entries. -/
def kids (ns : List Node) : Multiset Child := (ns.map Node.kids).sum

/-- The number of entries that name an inode. -/
def named (cs : Multiset Child) (ino : ℕ) : ℕ := cs.countP fun c => c.ino = ino

/-- The inode is the root, or an entry names it. -/
def Live (root : ℕ) (cs : Multiset Child) (ino : ℕ) : Prop := ino = root ∨ 0 < named cs ino

/-- The law of a node, where `cs` are all entries. -/
structure NodeLaw (root : ℕ) (cs : Multiset Child) (x : Node) : Prop where
  file : x.type ≠ .dir → x.count = named cs x.ino
  once : x.type = .dir → named cs x.ino + (if x.ino = root then 1 else 0) ≤ 1
  live : x.type = .dir → Live root cs x.ino → x.count = 2 + x.subdirs
  removed : x.type = .dir → ¬Live root cs x.ino → x.count = 0 ∧ x.kids = 0

/-- The law of link counts. -/
structure Law (root : ℕ) (flying : Multiset Child) (ns : List Node) : Prop where
  inj : ∀ (i j : ℕ) (x y : Node), ns[i]? = some x → ns[j]? = some y → x.ino = y.ino → i = j
  root_mem : ∃ x ∈ ns, x.ino = root
  known : ∀ c ∈ kids ns + flying, ∃ x ∈ ns, x.ino = c.ino ∧ c.type = .ok x.type
  node : ∀ x ∈ ns, NodeLaw root (kids ns + flying) x

variable {root d i : ℕ} {flying : Multiset Child} {cs cs' ks : Multiset Child} {ns : List Node}
  {x y : Node} {c c' : Child} {flying' : Multiset Child}

/-! ### Counting -/

@[simp] theorem named_cons (ino : ℕ) :
    named (c ::ₘ cs) ino = named cs ino + if c.ino = ino then 1 else 0 := by
  rw [named, Multiset.countP_cons]
  rfl

/-- One node changes. -/
theorem kids_set (hx : ns[d]? = some x) : kids (ns.set d y) + x.kids = kids ns + y.kids :=
  sum_map_set Node.kids hx

theorem kids_set_of_eq (hx : ns[d]? = some x) (hkids : y.kids = x.kids) :
    kids (ns.set d y) = kids ns := by
  have hset := kids_set (y := y) hx
  rw [hkids] at hset
  exact add_right_cancel hset

theorem kids_set_of_cons (hx : ns[d]? = some x) (hkids : y.kids = c ::ₘ x.kids) :
    kids (ns.set d y) = c ::ₘ kids ns := by
  have hset := kids_set (y := y) hx
  rw [hkids, add_cons, ← Multiset.cons_add] at hset
  exact add_right_cancel hset

theorem cons_kids_set (hx : ns[d]? = some x) (hkids : x.kids = c ::ₘ y.kids) :
    c ::ₘ kids (ns.set d y) = kids ns := by
  have hset := kids_set (y := y) hx
  rw [hkids, add_cons, ← Multiset.cons_add] at hset
  exact add_right_cancel hset

/-! ### Nodes -/

theorem NodeLaw.congr (h : NodeLaw root cs x) (hnamed : named cs' x.ino = named cs x.ino) :
    NodeLaw root cs' x := by
  refine ⟨fun htype => ?_, fun htype => ?_, fun htype hlive => h.live htype ?_,
    fun htype hremoved => h.removed htype ?_⟩
  · rw [hnamed]
    exact h.file htype
  · rw [hnamed]
    exact h.once htype
  · rwa [Live, ← hnamed]
  · rwa [Live, ← hnamed]

/-- A directory with a count is the root or is named. -/
theorem NodeLaw.live_of_count (h : NodeLaw root cs x) (htype : x.type = .dir)
    (hcount : x.count ≠ 0) : Live root cs x.ino := by
  by_contra hdead
  exact hcount (h.removed htype hdead).1

theorem NodeLaw.live_of_kids (h : NodeLaw root cs x) (htype : x.type = .dir)
    (hc : c ∈ x.kids) : Live root cs x.ino := by
  by_contra hdead
  rw [(h.removed htype hdead).2] at hc
  exact absurd hc (Multiset.notMem_zero c)

/-- A directory that has entries changes its subdirectories and its count together. -/
theorem NodeLaw.of_live (h : NodeLaw root cs x) (htype : x.type = .dir)
    (hlive : Live root cs x.ino) (hino : y.ino = x.ino) (hytype : y.type = x.type)
    (hcount : y.count = 2 + y.subdirs) : NodeLaw root cs y := by
  have hdir : y.type = .dir := hytype.trans htype
  refine ⟨fun hne => absurd hdir hne, fun _ => ?_, fun _ _ => hcount, fun _ hdead => ?_⟩
  · rw [hino]
    exact h.once htype
  · rw [hino] at hdead
    exact absurd hlive hdead

/-- One node changes, and the entries that name other inodes stay as many as they are. -/
theorem Law.set (h : Law root flying ns) (hx : ns[d]? = some x)
    (hino : y.ino = x.ino) (htype : y.type = x.type)
    (hknown : ∀ c ∈ kids (ns.set d y) + flying', ∃ z ∈ ns, z.ino = c.ino ∧ c.type = .ok z.type)
    (hnamed : ∀ ino, ino ≠ x.ino →
      named (kids (ns.set d y) + flying') ino = named (kids ns + flying) ino)
    (hy : NodeLaw root (kids (ns.set d y) + flying') y) : Law root flying' (ns.set d y) := by
  have hlt : d < ns.length := (List.getElem?_eq_some_iff.1 hx).1
  have hnew : ∀ {z : Node}, z ∈ ns → ∃ z' ∈ ns.set d y, z'.ino = z.ino ∧ z'.type = z.type := by
    intro z hz
    obtain ⟨j, hj⟩ := getElem?_of_mem hz
    rcases eq_or_ne d j with rfl | hne
    · obtain rfl := Option.mem_unique hx hj
      exact ⟨y, mem_of_getElem? (getElem?_set_self hlt), hino, htype⟩
    · exact ⟨z, mem_of_getElem? ((getElem?_set_ne hne).trans hj), rfl, rfl⟩
  refine ⟨fun i j z z' hz hz' heq => ?_, ?_, fun c hc => ?_, fun z hz => ?_⟩
  · rcases (getElem?_set_eq_some hx).1 hz with ⟨rfl, rfl⟩ | ⟨-, h1⟩ <;>
      rcases (getElem?_set_eq_some hx).1 hz' with ⟨rfl, rfl⟩ | ⟨-, h2⟩
    · rfl
    · exact h.inj i j x z' hx h2 (hino.symm.trans heq)
    · exact h.inj i j z x h1 hx (heq.trans hino)
    · exact h.inj i j z z' h1 h2 heq
  · obtain ⟨z, hz, hroot⟩ := h.root_mem
    obtain ⟨z', hz', hzino, -⟩ := hnew hz
    exact ⟨z', hz', hzino.trans hroot⟩
  · obtain ⟨z, hz, hzino, hztype⟩ := hknown c hc
    obtain ⟨z', hz', hino', htype'⟩ := hnew hz
    exact ⟨z', hz', hino'.trans hzino, htype' ▸ hztype⟩
  · obtain ⟨j, hj⟩ := getElem?_of_mem hz
    rcases (getElem?_set_eq_some hx).1 hj with ⟨-, rfl⟩ | ⟨hne, hj⟩
    · exact hy
    · refine (h.node z (mem_of_getElem? hj)).congr (hnamed z.ino fun heq => ?_)
      exact hne (h.inj j d z x hj hx heq)

theorem subdirs_cons (hkids : x.kids = c ::ₘ ks) :
    x.subdirs = ks.countP (fun c => c.type = .ok .dir) + c.dirLinks := by
  rw [Node.subdirs, hkids, Multiset.countP_cons]
  rfl

section

variable (hx : ns[d]? = some x) (htype : x.type = .dir)

include hx htype

/-- The entries of a directory in use change, and its count of links with them. -/
theorem Law.setDir (h : Law root flying ns) (hlive : Live root (kids ns + flying) x.ino)
    (hino : y.ino = x.ino) (hytype : y.type = x.type) (hcount : y.count = 2 + y.subdirs)
    (hknown : ∀ c ∈ kids (ns.set d y) + flying', ∃ z ∈ ns, z.ino = c.ino ∧ c.type = .ok z.type)
    (hnamed : ∀ ino, named (kids (ns.set d y) + flying') ino = named (kids ns + flying) ino) :
    Law root flying' (ns.set d y) := by
  refine h.set hx hino hytype hknown (fun ino _ => hnamed ino) ?_
  exact ((h.node x (mem_of_getElem? hx)).of_live htype hlive hino hytype hcount).congr
    (hnamed y.ino)

/-- The count of a directory, with one of its entries. -/
theorem Law.count_eq (h : Law root flying ns) (hkids : x.kids = c ::ₘ ks) :
    x.count = 2 + (ks.countP (fun c => c.type = .ok .dir) + c.dirLinks) := by
  have hnode := h.node x (mem_of_getElem? hx)
  rw [← subdirs_cons hkids]
  exact hnode.live htype (hnode.live_of_kids htype (hkids ▸ Multiset.mem_cons_self c ks))

/-- An entry is taken from a directory. -/
theorem Law.take (h : Law root flying ns) (hkids : x.kids = c ::ₘ ks) :
    Law root (c ::ₘ flying) (ns.set d { x with kids := ks, count := x.count - c.dirLinks }) := by
  have hnode := h.node x (mem_of_getElem? hx)
  have hlive := hnode.live_of_kids htype (hkids ▸ Multiset.mem_cons_self c ks)
  have hcount := h.count_eq hx htype hkids
  have hall : kids (ns.set d { x with kids := ks, count := x.count - c.dirLinks }) +
      (c ::ₘ flying) = kids ns + flying := by
    rw [add_cons, ← Multiset.cons_add, cons_kids_set hx hkids]
  refine h.setDir hx htype hlive rfl rfl ?_ (fun c' hc' => h.known c' (hall ▸ hc'))
    fun ino => by rw [hall]
  change x.count - c.dirLinks = 2 + ks.countP _
  omega

/-- An entry of the same inode is put into a directory in use. -/
theorem Law.put (h : Law root (c ::ₘ flying) ns) (hused : x.count ≠ 0) (hino : c'.ino = c.ino)
    (hctype : c'.type = c.type) :
    Law root flying
      (ns.set d { x with kids := c' ::ₘ x.kids, count := x.count + c'.dirLinks }) := by
  have hnode := h.node x (mem_of_getElem? hx)
  have hlive := hnode.live_of_count htype hused
  have hcount := hnode.live htype hlive
  have hall : kids (ns.set d { x with kids := c' ::ₘ x.kids, count := x.count + c'.dirLinks }) +
      flying = c' ::ₘ (kids ns + flying) := by
    rw [kids_set_of_cons hx rfl, Multiset.cons_add]
  rw [add_cons] at hlive
  refine h.setDir hx htype (by rwa [add_cons]) rfl rfl ?_ (fun c1 hc1 => ?_) fun ino => ?_
  · have hsub := subdirs_cons
      (show ({ x with kids := c' ::ₘ x.kids } : Node).kids = c' ::ₘ x.kids from rfl)
    change x.count + c'.dirLinks = 2 + ({ x with kids := c' ::ₘ x.kids } : Node).subdirs
    rw [hsub]
    change x.count + c'.dirLinks = 2 + (x.subdirs + c'.dirLinks)
    omega
  · rw [hall] at hc1
    rcases Multiset.mem_cons.1 hc1 with rfl | hc1
    · rw [hino, hctype]
      exact h.known c (by rw [add_cons]; exact Multiset.mem_cons_self _ _)
    · exact h.known c1 (by rw [add_cons]; exact Multiset.mem_cons_of_mem hc1)
  · rw [hall, add_cons, named_cons, named_cons, hino]

/-- An entry gets another name. -/
theorem Law.rename (h : Law root flying ns) (hkids : x.kids = c ::ₘ ks) (hino : c'.ino = c.ino)
    (hctype : c'.type = c.type) : Law root flying (ns.set d { x with kids := c' ::ₘ ks }) := by
  have hcount := h.count_eq hx htype hkids
  have hsame : c'.dirLinks = c.dirLinks := by rw [Child.dirLinks, hctype, Child.dirLinks]
  have hset := (h.take hx htype hkids).put (x := { x with kids := ks, count := _ })
    (List.getElem?_set_self (List.getElem?_eq_some_iff.1 hx).1) htype
    (show x.count - c.dirLinks ≠ 0 by omega) hino hctype
  rw [set_set] at hset
  have hback : x.count - c.dirLinks + c'.dirLinks = x.count := by omega
  rwa [hback] at hset

end

section

variable (h : Law root (c ::ₘ flying) ns) (hx : ns[i]? = some x) (hino : c.ino = x.ino)

include h hx hino

/-- The inode of an entry loses it, and has another count of links. -/
theorem Law.drop {count : ℕ} (hy : NodeLaw root (kids ns + flying) { x with count := count }) :
    Law root flying (ns.set i { x with count := count }) := by
  have hall : kids (ns.set i { x with count := count }) = kids ns := kids_set_of_eq hx rfl
  refine h.set hx rfl rfl (fun c' hc' => ?_) (fun ino hne => ?_) (by rwa [hall])
  · rw [hall] at hc'
    exact h.known c' (by rw [add_cons]; exact Multiset.mem_cons_of_mem hc')
  · rw [hall, add_cons, named_cons, if_neg fun heq => hne (heq.symm.trans hino)]
    rfl

/-- A file loses the link of an entry. -/
theorem Law.dropFile (htype : x.type ≠ .dir) :
    Law root flying (ns.set i { x with count := x.count - 1 }) := by
  have hcount := (h.node x (mem_of_getElem? hx)).file htype
  rw [add_cons, named_cons, if_pos hino] at hcount
  refine h.drop hx hino ⟨fun _ => ?_, fun hdir => absurd hdir htype, fun hdir => absurd hdir htype,
    fun hdir => absurd hdir htype⟩
  change x.count - 1 = named (kids ns + flying) x.ino
  omega

/-- A directory without entries loses its place and its links. -/
theorem Law.dropDir (htype : x.type = .dir) (hempty : x.kids = 0) :
    Law root flying (ns.set i { x with count := x.count - 1 - 1 }) := by
  have hnode := h.node x (mem_of_getElem? hx)
  have honce := hnode.once htype
  rw [add_cons, named_cons, if_pos hino] at honce
  have hroot : x.ino ≠ root := by
    intro heq
    rw [if_pos heq] at honce
    omega
  have hcount := hnode.live htype (.inr (by rw [add_cons, named_cons, if_pos hino]; omega))
  have hsub : x.subdirs = 0 := by rw [Node.subdirs, hempty, Multiset.countP_zero]
  have hdead : ¬Live root (kids ns + flying) x.ino := by
    rintro (heq | hpos)
    · exact hroot heq
    · omega
  refine h.drop hx hino ⟨fun hne => absurd htype hne, fun _ => ?_,
    fun _ hlive => absurd hlive hdead, fun _ _ => ⟨?_, hempty⟩⟩
  · change named (kids ns + flying) x.ino + (if x.ino = root then 1 else 0) ≤ 1
    omega
  · change x.count - 1 - 1 = 0
    omega

end

/-- A file gets the link of an entry that will be made. -/
theorem Law.addLink (h : Law root flying ns) (hx : ns[i]? = some x) (htype : x.type ≠ .dir)
    (hino : c.ino = x.ino) (hctype : c.type = .ok x.type) :
    Law root (c ::ₘ flying) (ns.set i { x with count := x.count + 1 }) := by
  have hcount := (h.node x (mem_of_getElem? hx)).file htype
  have hall : kids (ns.set i { x with count := x.count + 1 }) = kids ns := kids_set_of_eq hx rfl
  refine h.set hx rfl rfl (fun c' hc' => ?_) (fun ino hne => ?_) ⟨fun _ => ?_,
    fun hdir => absurd hdir htype, fun hdir => absurd hdir htype, fun hdir => absurd hdir htype⟩
  · rw [hall, add_cons] at hc'
    rcases Multiset.mem_cons.1 hc' with rfl | hc'
    · exact ⟨x, mem_of_getElem? hx, hino.symm, hctype⟩
    · exact h.known c' hc'
  · rw [hall, add_cons, named_cons, if_neg fun heq => hne (heq.symm.trans hino)]
    rfl
  · rw [hall, add_cons, named_cons]
    rw [if_pos hino, hcount]

/-- A directory in use gets an entry, and the file that it names a link. -/
theorem Law.link (h : Law root flying ns) (hx : ns[d]? = some x) (hdir : x.type = .dir)
    (hused : x.count ≠ 0) (hy : ns[i]? = some y) (htype : y.type ≠ .dir) (hino : c.ino = y.ino)
    (hctype : c.type = .ok y.type) :
    Law root flying
      ((ns.set d { x with kids := c ::ₘ x.kids, count := x.count + c.dirLinks }).set i
        { y with count := y.count + 1 }) := by
  have hne : i ≠ d := by
    rintro rfl
    obtain rfl := Option.mem_unique hx hy
    exact htype hdir
  rw [set_comm _ _ hne.symm]
  exact (h.addLink hy htype hino hctype).put (by rw [getElem?_set_ne hne, hx]) hdir hused rfl
    rfl

/-- A new inode, with an entry for it that will be made. -/
theorem Law.create (h : Law root flying ns) (hfresh : ∀ z ∈ ns, z.ino ≠ c.ino) {type : FileType}
    (hctype : c.type = .ok type) :
    Law root (c ::ₘ flying) (ns ++ [⟨c.ino, type, if type = .dir then 2 else 1, 0⟩]) := by
  obtain ⟨new, hnew⟩ : ∃ new : Node, new = ⟨c.ino, type, if type = .dir then 2 else 1, 0⟩ :=
    ⟨_, rfl⟩
  rw [← hnew]
  have hino : new.ino = c.ino := by rw [hnew]
  have hall : kids (ns ++ [new]) + (c ::ₘ flying) = c ::ₘ (kids ns + flying) := by
    rw [kids, map_append, sum_append, map_singleton, sum_singleton, hnew,
      add_zero, add_cons]
    rfl
  have hzero : named (kids ns + flying) c.ino = 0 := by
    refine Multiset.countP_eq_zero.2 fun c1 hc1 heq => ?_
    obtain ⟨z, hz, hzino, -⟩ := h.known c1 hc1
    exact hfresh z hz (hzino.trans heq)
  have hroot : c.ino ≠ root := by
    obtain ⟨z, hz, rfl⟩ := h.root_mem
    exact (hfresh z hz).symm
  have hone : named (c ::ₘ (kids ns + flying)) new.ino = 1 := by
    rw [named_cons, hino, if_pos rfl, hzero]
  refine ⟨fun i j z z' hz hz' heq => ?_, ?_, fun c1 hc1 => ?_, fun z hz => ?_⟩
  · rcases getElem?_concat_eq_some.1 hz with h1 | ⟨rfl, rfl⟩ <;>
      rcases getElem?_concat_eq_some.1 hz' with h2 | ⟨rfl, rfl⟩
    · exact h.inj i j z z' h1 h2 heq
    · exact absurd (heq.trans hino) (hfresh z (mem_of_getElem? h1))
    · exact absurd (heq.symm.trans hino) (hfresh z' (mem_of_getElem? h2))
    · rfl
  · obtain ⟨z, hz, hzroot⟩ := h.root_mem
    exact ⟨z, mem_append_left _ hz, hzroot⟩
  · rw [hall] at hc1
    rcases Multiset.mem_cons.1 hc1 with rfl | hc1
    · exact ⟨new, by simp, hino, by rw [hctype, hnew]⟩
    · obtain ⟨z, hz, hzino, hztype⟩ := h.known c1 hc1
      exact ⟨z, mem_append_left _ hz, hzino, hztype⟩
  · rw [hall]
    rcases mem_append.1 hz with hz | hz
    · refine (h.node z hz).congr ?_
      rw [named_cons, if_neg (hfresh z hz).symm, add_zero]
    · obtain rfl := mem_singleton.1 hz
      refine ⟨fun hne => ?_, fun _ => ?_, fun hdir _ => ?_, fun _ hdead => absurd (.inr ?_) hdead⟩
      · rw [hone, hnew]
        rw [hnew] at hne
        exact if_neg hne
      · rw [hone, hino, if_neg hroot]
      · rw [hnew] at hdir ⊢
        rw [if_pos hdir]
        rfl
      · rw [hone]
        exact Nat.one_pos

end Namespace

end Jinux
