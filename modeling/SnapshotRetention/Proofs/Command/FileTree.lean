import Mathlib.Data.List.Induction
import SnapshotRetention.Command.FileTree
import SnapshotRetention.Proofs.Store

/-!
# Following paths

A tree is sound (`FileTree.Sound`) if the folders that are known are those that stand under a name
in a known folder, the root and the working directory among them.

A path that leads to a folder goes on leading there as long as no folder goes (`Keeps.look`), and it
led there before if the folder was known and the path never goes up (`Sound.walk_of_known`). The
path of a name below a folder leads to what stands under the name there (`look_join`).
-/

namespace SnapshotRetention

/-! ## Components -/

namespace Path

theorem splitSlashes_cons (c : Char) (rest : List Char) : splitSlashes (c :: rest) =
    if c = '/' then [] :: splitSlashes rest
    else
      match splitSlashes rest with
      | [] => [[c]]
      | first :: others => (c :: first) :: others := rfl

theorem splitSlashes_ne_nil (cs : List Char) : splitSlashes cs ≠ [] := by
  cases cs with
  | nil => exact List.cons_ne_nil _ _
  | cons c rest =>
    rw [splitSlashes_cons]
    split
    next => exact List.cons_ne_nil _ _
    next =>
      split
      next => exact List.cons_ne_nil _ _
      next => exact List.cons_ne_nil _ _

/-- A slash divides the components before it from those after it. -/
theorem splitSlashes_append (cs ds : List Char) :
    splitSlashes (cs ++ '/' :: ds) = splitSlashes cs ++ splitSlashes ds := by
  induction cs with
  | nil => rw [List.nil_append, splitSlashes_cons, if_pos rfl]; rfl
  | cons c cs ih =>
    rw [List.cons_append, splitSlashes_cons, splitSlashes_cons, ih]
    split
    next => rfl
    next =>
      cases hcs : splitSlashes cs with
      | nil => exact absurd hcs (splitSlashes_ne_nil cs)
      | cons first others => rfl

theorem splitSlashes_of_not_mem {cs : List Char} (h : '/' ∉ cs) : splitSlashes cs = [cs] := by
  induction cs with
  | nil => rfl
  | cons c cs ih =>
    obtain ⟨hc, hcs⟩ := not_or.mp fun hmem => h (List.mem_cons.mpr hmem)
    rw [splitSlashes_cons, if_neg (Ne.symm hc), ih hcs]

theorem not_mem_of_isValidName {name : String} (h : Store.isValidName name = true) :
    '/' ∉ name.toList := by
  intro hmem
  unfold Store.isValidName at h
  have hall := List.all_eq_true.mp (Bool.and_eq_true_iff.mp h).2 '/' hmem
  simp at hall

/-- The name comes last in the path of a name below a folder, and before it come the components of
the folder, but for a slash at their end. -/
theorem components_join {folder name : String} (hfolder : folder ≠ "")
    (hslash : '/' ∉ name.toList) : ∃ above, above ≠ [] ∧
      components (join folder name) = above ++ [name] ∧
        (components folder = above ∨ components folder = above ++ [""]) := by
  have hrelative : isAbsolute name = false := by
    unfold isAbsolute
    cases hchars : name.toList with
    | nil => rfl
    | cons c rest =>
      refine beq_eq_false_iff_ne.mpr fun heq => hslash ?_
      rw [hchars, Option.some.inj heq]
      exact List.mem_cons_self
  have hlast : splitSlashes name.toList = [name.toList] := splitSlashes_of_not_mem hslash
  have hjoined : ∀ cs : List Char,
      (splitSlashes (cs ++ '/' :: name.toList)).map String.ofList =
        (splitSlashes cs).map String.ofList ++ [name] := by
    intro cs
    rw [splitSlashes_append, hlast, List.map_append]
    simp
  have hne : ∀ cs : List Char, (splitSlashes cs).map String.ofList ≠ [] := fun cs hnil =>
    splitSlashes_ne_nil cs (List.map_eq_nil_iff.mp hnil)
  unfold components join
  rw [hrelative, if_neg Bool.false_ne_true]
  by_cases hend : folder.toList.getLast? = some '/'
  · obtain ⟨cs, hcs⟩ := List.getLast?_eq_some_iff.mp hend
    rw [if_pos (Or.inr hend), String.toList_append, hcs, List.append_assoc]
    refine ⟨_, hne cs, hjoined cs, Or.inr ?_⟩
    rw [splitSlashes_append, List.map_append]
    rfl
  · rw [if_neg (not_or.mpr ⟨hfolder, hend⟩), String.toList_append, String.toList_append,
      List.append_assoc]
    exact ⟨_, hne folder.toList, hjoined folder.toList, Or.inl rfl⟩

end Path

namespace FileTree

open Store (Node)

variable {t t' : FileTree} {p p' q : List String} {c name : String} {d : Store.Directory}
  {components : List String} {node : Node}

/-! ## Replacing folders and nodes -/

@[simp] theorem working_setFolder (p : List String) (d : Store.Directory) (t : FileTree) :
    (t.setFolder p d).working = t.working := rfl

/-- What is found under a name once all entries of a name have been replaced. -/
theorem find?_replaced (folders : List (List String × Store.Directory)) (p : List String)
    (d : Store.Directory) (q : List String) :
    ((folders.map fun e => if e.1 == p then (p, d) else e).find? fun e => e.1 == q).map Prod.snd =
      if q = p then (folders.find? fun e => e.1 == p).map fun _ => d
      else (folders.find? fun e => e.1 == q).map Prod.snd := by
  induction folders with
  | nil => simp
  | cons x rest ih =>
    rw [List.map_cons, List.find?_cons, List.find?_cons, List.find?_cons]
    by_cases hx : x.1 = p
    · rw [if_pos (beq_iff_eq.mpr hx), beq_iff_eq.mpr hx]
      by_cases hq : q = p
      · simp [hq]
      · rw [beq_eq_false_iff_ne.mpr (Ne.symm hq), hx, beq_eq_false_iff_ne.mpr (Ne.symm hq),
          if_neg hq]
        rwa [if_neg hq] at ih
    · have hno : (x.1 == p) = false := beq_eq_false_iff_ne.mpr hx
      rw [hno, if_neg Bool.false_ne_true]
      by_cases hq : x.1 = q
      · rw [beq_iff_eq.mpr hq, if_neg fun heq => hx (hq.trans heq)]
      · rw [beq_eq_false_iff_ne.mpr hq]
        exact ih

theorem folder?_setFolder (p : List String) (d : Store.Directory) (t : FileTree)
    (q : List String) : (t.setFolder p d).folder? q = if q = p then some d else t.folder? q := by
  unfold setFolder folder?
  dsimp only
  cases hfound : t.folders.find? fun e => e.1 == p with
  | some e =>
    rw [if_pos (show (Option.map Prod.snd (some e)).isSome = true from rfl), find?_replaced, hfound]
    rfl
  | none =>
    rw [if_neg (show ¬(Option.map Prod.snd none).isSome = true from Bool.false_ne_true),
      List.find?_append]
    by_cases hq : q = p
    · rw [if_pos hq, hq, hfound]
      simp
    · rw [if_neg hq]
      cases t.folders.find? fun e => e.1 == q with
      | some e => rfl
      | none => simp [Ne.symm hq]

theorem node?_setFolder (p : List String) (d : Store.Directory) (t : FileTree) (q : List String)
    (c : String) : (t.setFolder p d).node? q c = if q = p then d.nodes.get? c else t.node? q c := by
  unfold node?
  rw [folder?_setFolder]
  split
  next => rfl
  next => rfl

/-- The folder of a path from the root is known. -/
def Known (p : List String) (t : FileTree) : Prop := (t.folder? p).isSome = true

theorem known_setFolder (p : List String) (d : Store.Directory) (t : FileTree) (q : List String) :
    (t.setFolder p d).Known q ↔ q = p ∨ t.Known q := by
  unfold Known
  rw [folder?_setFolder]
  by_cases hq : q = p
  · simp [hq]
  · simp [hq]

theorem known_of_node (h : t.node? p c = some node) : t.Known p := by
  obtain ⟨d, hd, -⟩ := Option.bind_eq_some_iff.mp h
  exact Option.isSome_iff_exists.mpr ⟨d, hd⟩

theorem node?_of_folder (hd : t.folder? p = some d) (c : String) :
    t.node? p c = d.nodes.get? c := by
  unfold node?
  rw [hd]
  rfl

theorem setNode_eq (hd : t.folder? p = some d) (c : String) (node : Node) :
    t.setNode p c node = t.setFolder p { d with nodes := d.nodes.insert c node } := by
  unfold setNode
  rw [hd]

theorem working_setNode (p : List String) (c : String) (node : Node) (t : FileTree) :
    (t.setNode p c node).working = t.working := by
  unfold setNode
  split
  next => rfl
  next => rfl

theorem node?_setNode (hp : t.Known p) (c : String) (node : Node) (q : List String) (c' : String) :
    (t.setNode p c node).node? q c' = if q = p ∧ c' = c then some node else t.node? q c' := by
  obtain ⟨d, hd⟩ := Option.isSome_iff_exists.mp hp
  rw [setNode_eq hd, node?_setFolder, Table.get?_insert]
  by_cases hq : q = p
  · subst hq
    rw [node?_of_folder hd]
    simp
  · simp [hq]

theorem known_setNode (hp : t.Known p) (c : String) (node : Node) (q : List String) :
    (t.setNode p c node).Known q ↔ t.Known q := by
  obtain ⟨d, hd⟩ := Option.isSome_iff_exists.mp hp
  rw [setNode_eq hd, known_setFolder]
  exact ⟨fun h => h.elim (fun heq => heq ▸ hp) fun h => h, Or.inr⟩

/-! ## Sound trees -/

/-- The known folders are the root and those that stand under a name in a known folder. -/
structure Rooted (t : FileTree) : Prop where
  root : t.Known []
  folder_iff : ∀ p c, t.node? p c = some .folder ↔ t.Known (p ++ [c])

/-- The working directory is known as well. -/
structure Sound (t : FileTree) : Prop extends Rooted t where
  working : t.Known t.working

/-- Above a known folder all folders are known. -/
theorem Rooted.known_of_append (h : t.Rooted) (hpq : t.Known (p ++ q)) : t.Known p := by
  induction q using List.reverseRecOn with
  | nil => rwa [List.append_nil] at hpq
  | append_singleton q c ih =>
    refine ih (known_of_node (c := c) ((h.folder_iff (p ++ q) c).mpr ?_))
    rwa [List.append_assoc]

theorem Rooted.known_dropLast (h : t.Rooted) (hp : t.Known p) : t.Known p.dropLast := by
  rcases List.eq_nil_or_concat p with rfl | ⟨above, c, rfl⟩
  · exact hp
  · rw [List.concat_eq_append] at hp ⊢
    rw [List.dropLast_concat]
    exact h.known_of_append hp

theorem Sound.start (h : t.Sound) (components : List String) : t.Known (t.start components) := by
  unfold FileTree.start
  split
  next => exact h.root
  next => exact h.working

/-- Another folder may take the place of one, if it has the same folders in it. -/
theorem Sound.setFolder (h : t.Sound) (hp : t.Known p)
    (hd : ∀ c, d.nodes.get? c = some .folder ↔ t.node? p c = some .folder) :
    (t.setFolder p d).Sound := by
  have hknown : ∀ q, (t.setFolder p d).Known q ↔ t.Known q := fun q =>
    (known_setFolder p d t q).trans ⟨fun hor => hor.elim (fun heq => heq ▸ hp) fun h => h, Or.inr⟩
  refine ⟨⟨(hknown _).mpr h.root, fun q c => ?_⟩, (hknown _).mpr h.working⟩
  rw [hknown, ← h.folder_iff, node?_setFolder]
  split
  next hq => rw [hq]; exact hd c
  next => exact Iff.rfl

/-- A file may be put where no folder stands. -/
theorem Sound.setNode (h : t.Sound) (hp : t.Known p) (hold : t.node? p c ≠ some .folder)
    (hnew : node ≠ .folder) : (t.setNode p c node).Sound := by
  refine ⟨⟨(known_setNode hp c node _).mpr h.root, fun q c' => ?_⟩, ?_⟩
  · rw [known_setNode hp, ← h.folder_iff, node?_setNode hp]
    split
    next hand =>
      obtain ⟨rfl, rfl⟩ := hand
      exact ⟨fun heq => absurd (Option.some.inj heq) hnew, fun heq => absurd heq hold⟩
    next => exact Iff.rfl
  · rw [working_setNode]
    exact (known_setNode hp c node _).mpr h.working

/-! ## Walking -/

/-- No folder goes. -/
structure Keeps (t t' : FileTree) : Prop where
  working : t'.working = t.working
  folder : ∀ p c, t.node? p c = some .folder → t'.node? p c = some .folder

theorem Keeps.refl (t : FileTree) : Keeps t t := ⟨rfl, fun _ _ h => h⟩

theorem Keeps.trans {t'' : FileTree} (h : Keeps t t') (h' : Keeps t' t'') : Keeps t t'' :=
  ⟨h'.working.trans h.working, fun p c hc => h'.folder p c (h.folder p c hc)⟩

/-- One step on the way to a folder. -/
theorem walk_cons (h : t.walk p (c :: components) = .ok (.folder q)) :
    (Path.stays c = true ∧ t.walk p components = .ok (.folder q)) ∨
      (Path.stays c = false ∧ c = ".." ∧ t.walk p.dropLast components = .ok (.folder q)) ∨
      (Path.stays c = false ∧ c ≠ ".." ∧ ¬Path.maxNameBytes < c.utf8ByteSize ∧
        t.node? p c = some .folder ∧ t.walk (p ++ [c]) components = .ok (.folder q)) := by
  unfold walk at h
  split at h
  next hstays => exact Or.inl ⟨hstays, h⟩
  next hnot =>
    have hnot := Bool.eq_false_iff.mpr hnot
    split at h
    next hup => exact Or.inr (Or.inl ⟨hnot, hup, h⟩)
    next hup =>
      split at h
      next => cases h
      next hshort =>
        split at h
        next => cases h
        next hnode => exact Or.inr (Or.inr ⟨hnot, hup, hshort, hnode, h⟩)
        next =>
          split at h
          next => cases h
          next => cases h
        next =>
          split at h
          next => cases h
          next => cases h

theorem walk_stays (hc : Path.stays c = true) (components : List String) :
    t.walk p (c :: components) = t.walk p components := by
  rw [walk, if_pos hc]

theorem walk_up (components : List String) :
    t.walk p (".." :: components) = t.walk p.dropLast components := by
  rw [walk, if_neg (by decide), if_pos rfl]

theorem walk_folder (hc : Path.stays c = false) (hup : c ≠ "..")
    (hshort : ¬Path.maxNameBytes < c.utf8ByteSize) (hnode : t.node? p c = some .folder)
    (components : List String) :
    t.walk p (c :: components) = t.walk (p ++ [c]) components := by
  rw [walk, if_neg (by rw [hc]; exact Bool.false_ne_true), if_neg hup, if_neg hshort, hnode]

/-- A way to a folder stays one while no folder goes. -/
theorem Keeps.walk (hk : Keeps t t') (h : t.walk p components = .ok (.folder q)) :
    t'.walk p components = .ok (.folder q) := by
  induction components generalizing p with
  | nil => exact h
  | cons c rest ih =>
    rcases walk_cons h with ⟨hstays, hrest⟩ | ⟨-, rfl, hrest⟩ | ⟨hc, hup, hshort, hnode, hrest⟩
    · rw [walk_stays hstays]
      exact ih hrest
    · rw [walk_up]
      exact ih hrest
    · rw [walk_folder hc hup hshort (hk.folder p c hnode)]
      exact ih hrest

theorem Sound.known_of_walk (hs : t.Sound) (hp : t.Known p)
    (h : t.walk p components = .ok (.folder q)) : t.Known q := by
  induction components generalizing p with
  | nil =>
    obtain rfl := Place.folder.inj (Except.ok.inj h)
    exact hp
  | cons c rest ih =>
    rcases walk_cons h with ⟨-, hrest⟩ | ⟨-, rfl, hrest⟩ | ⟨-, -, -, hnode, hrest⟩
    · exact ih hp hrest
    · exact ih (hs.known_dropLast hp) hrest
    · exact ih ((hs.folder_iff p c).mp hnode) hrest

/-- A way that never goes up leads below where it starts. -/
theorem prefix_of_walk (hup : ".." ∉ components) (h : t.walk p components = .ok (.folder q)) :
    p <+: q := by
  induction components generalizing p with
  | nil =>
    obtain rfl := Place.folder.inj (Except.ok.inj h)
    exact List.prefix_refl p
  | cons c rest ih =>
    obtain ⟨hc, hrest⟩ := not_or.mp fun hmem => hup (List.mem_cons.mpr hmem)
    rcases walk_cons h with ⟨-, h⟩ | ⟨-, rfl, -⟩ | ⟨-, -, -, -, h⟩
    · exact ih hrest h
    · exact absurd rfl hc
    · exact (List.prefix_append p [c]).trans (ih hrest h)

/-- A way that never goes up and leads to a folder known before led there before. -/
theorem Sound.walk_of_known (hs : t.Sound) (hup : ".." ∉ components)
    (h : t'.walk p components = .ok (.folder q)) (hq : t.Known q) :
    t.walk p components = .ok (.folder q) := by
  induction components generalizing p with
  | nil => exact h
  | cons c rest ih =>
    obtain ⟨-, hrest⟩ := not_or.mp fun hmem => hup (List.mem_cons.mpr hmem)
    rcases walk_cons h with ⟨hstays, h⟩ | ⟨-, rfl, -⟩ | ⟨hc, hne, hshort, -, h⟩
    · rw [walk_stays hstays]
      exact ih hrest h
    · exact absurd List.mem_cons_self hup
    · -- the folder on the way lies above one that is known
      obtain ⟨below, rfl⟩ := prefix_of_walk hrest h
      have hnode := (hs.folder_iff p c).mpr (hs.known_of_append hq)
      rw [walk_folder hc hne hshort hnode]
      exact ih hrest h

/-- A slash at the end does not matter. -/
theorem walk_of_slash (h : t.walk p (components ++ [""]) = .ok (.folder q)) :
    t.walk p components = .ok (.folder q) := by
  induction components generalizing p with
  | nil => exact h
  | cons c rest ih =>
    rw [List.cons_append] at h
    rcases walk_cons h with ⟨hstays, h⟩ | ⟨-, rfl, h⟩ | ⟨hc, hup, hshort, hnode, h⟩
    · rw [walk_stays hstays]
      exact ih h
    · rw [walk_up]
      exact ih h
    · rw [walk_folder hc hup hshort hnode]
      exact ih h

theorem walk_append (h : t.walk p components = .ok (.folder q)) (rest : List String) :
    t.walk p (components ++ rest) = t.walk q rest := by
  induction components generalizing p with
  | nil =>
    obtain rfl := Place.folder.inj (Except.ok.inj h)
    rfl
  | cons c components ih =>
    rw [List.cons_append]
    rcases walk_cons h with ⟨hstays, h⟩ | ⟨-, rfl, h⟩ | ⟨hc, hup, hshort, hnode, h⟩
    · rw [walk_stays hstays]
      exact ih h
    · rw [walk_up]
      exact ih h
    · rw [walk_folder hc hup hshort hnode]
      exact ih h

theorem start_eq_of_head? (ht : t'.working = t.working) {components' : List String}
    (h : components'.head? = components.head?) : t'.start components' = t.start components := by
  unfold start
  rw [h, ht]

theorem Keeps.follow (hk : Keeps t t') (h : t.follow components = .ok (.folder q)) :
    t'.follow components = .ok (.folder q) := by
  unfold FileTree.follow
  rw [start_eq_of_head? hk.working rfl]
  exact hk.walk h

theorem look_eq_folder {path : String} : t.look path = .ok (.folder q) ↔
    path ≠ "" ∧ Path.fits path = true ∧ t.follow (Path.components path) = .ok (.folder q) := by
  unfold look
  by_cases hempty : path = ""
  · simp [hempty]
  · cases hfits : Path.fits path with
    | false => simp [hempty]
    | true => simp [hempty]

theorem folderAt?_eq_some {path : String} : t.folderAt? path = some (p, d) ↔
    t.look path = .ok (.folder p) ∧ t.folder? p = some d := by
  unfold folderAt?
  constructor
  · intro h
    split at h
    next q hlook =>
      obtain ⟨d', hd', heq⟩ := Option.map_eq_some_iff.mp h
      obtain ⟨rfl, rfl⟩ := Prod.mk.inj heq
      exact ⟨hlook, hd'⟩
    next => cases h
  · rintro ⟨hlook, hd⟩
    rw [hlook]
    dsimp only
    rw [hd]
    rfl

/-- A path that leads to a folder goes on leading there while no folder goes. -/
theorem Keeps.look {path : String} (hk : Keeps t t') (h : t.look path = .ok (.folder q)) :
    t'.look path = .ok (.folder q) := by
  obtain ⟨hne, hfits, hfollow⟩ := look_eq_folder.mp h
  exact look_eq_folder.mpr ⟨hne, hfits, hk.follow hfollow⟩

theorem Sound.known_of_look {path : String} (hs : t.Sound) (h : t.look path = .ok (.folder q)) :
    t.Known q :=
  hs.known_of_walk (hs.start _) (look_eq_folder.mp h).2.2

/-! ## Names below a folder -/

/-- The way to a name below a folder is the way to the folder, and then the name. -/
theorem exists_way_join {folder : String} (hplace : t.look folder = .ok (.folder p))
    (hslash : '/' ∉ name.toList) : ∃ above, above ≠ [] ∧
      Path.components (Path.join folder name) = above ++ [name] ∧
        t.walk (t.start (above ++ [name])) above = .ok (.folder p) := by
  obtain ⟨hfolder, -, hfollow⟩ := look_eq_folder.mp hplace
  obtain ⟨above, habove, hjoin, hends⟩ := Path.components_join hfolder hslash
  have hstart : t.start (above ++ [name]) = t.start (Path.components folder) := by
    refine start_eq_of_head? rfl ?_
    obtain ⟨a, rest, rfl⟩ := List.exists_cons_of_ne_nil habove
    rcases hends with hends | hends
    · rw [hends]
      rfl
    · rw [hends]
      rfl
  refine ⟨above, habove, hjoin, ?_⟩
  rw [hstart]
  rcases hends with hends | hends
  · exact hends ▸ hfollow
  · exact walk_of_slash (hends ▸ hfollow)

/-- What the path of a name below a folder leads to, if it is short enough. -/
theorem look_join {folder : String} (hplace : t.look folder = .ok (.folder p))
    (hslash : '/' ∉ name.toList) : t.look (Path.join folder name) =
      if Path.fits (Path.join folder name) then t.walk p [name] else .error .nameTooLong := by
  obtain ⟨above, habove, hjoin, hway⟩ := exists_way_join hplace hslash
  have hne : Path.join folder name ≠ "" := by
    intro hempty
    rw [hempty] at hjoin
    have hlength := congrArg List.length hjoin
    rw [List.length_append] at hlength
    exact habove (List.length_eq_zero_iff.mp (Nat.succ.inj hlength).symm)
  have hfollow : t.follow (Path.components (Path.join folder name)) = t.walk p [name] := by
    unfold follow
    rw [hjoin]
    exact walk_append hway [name]
  unfold look
  rw [if_neg hne, hfollow]
  cases Path.fits (Path.join folder name) with
  | true => rfl
  | false => rfl

end FileTree

end SnapshotRetention
