import SnapshotRetention.Proofs.Command.FileTree

/-!
# Making folders and writing files

Making the folders of a path only adds empty ones (`FileTree.Grown`), and where it succeeds the path
leads to a folder (`makeFolders_ok`). A file that is written to the path of a name below a folder is
put under the name there (`writeFile_join`). Both leave a tree sound (`Sound.makeFolders`,
`Sound.writeFile`), and the tree of the folders that lead to a working directory is sound to begin
with (`sound_ofWorking`).
-/

namespace SnapshotRetention.FileTree

open Store (Node)

variable {t t' : FileTree} {p q : List String} {c : String} {components : List String}

/-! ## Making folders -/

theorem node?_addFolder (hp : t.Known p) (c : String) (q : List String) (c' : String) :
    (t.addFolder p c).node? q c' =
      if q = p ++ [c] then none else if q = p ∧ c' = c then some .folder else t.node? q c' := by
  unfold addFolder
  rw [node?_setFolder]
  split
  next => rfl
  next => exact node?_setNode hp c .folder q c'

theorem known_addFolder (hp : t.Known p) (c : String) (q : List String) :
    (t.addFolder p c).Known q ↔ q = p ++ [c] ∨ t.Known q := by
  unfold addFolder
  rw [known_setFolder, known_setNode hp]

theorem working_addFolder (p : List String) (c : String) (t : FileTree) :
    (t.addFolder p c).working = t.working := by
  unfold addFolder
  rw [working_setFolder, working_setNode]

/-- A folder may be made under a free name. -/
theorem Rooted.addFolder (h : t.Rooted) (hp : t.Known p) (hfree : t.node? p c = none) :
    (t.addFolder p c).Rooted := by
  refine ⟨(known_addFolder hp c _).mpr (Or.inr h.root), fun q c' => ?_⟩
  have hnew : ¬t.Known (p ++ [c]) := fun hknown => by
    rw [(h.folder_iff p c).mpr hknown] at hfree
    cases hfree
  rw [known_addFolder hp, node?_addFolder hp]
  by_cases hq : q = p ++ [c]
  · rw [if_pos hq, hq]
    refine ⟨nofun, fun hor => ?_⟩
    rcases hor with heq | hknown
    · exact absurd (List.append_right_eq_self.mp heq) (List.cons_ne_nil _ _)
    · exact absurd (h.known_of_append hknown) hnew
  · rw [if_neg hq]
    by_cases hand : q = p ∧ c' = c
    · obtain ⟨rfl, rfl⟩ := hand
      simp
    · rw [if_neg hand, h.folder_iff]
      refine ⟨Or.inr, fun hor => hor.resolve_left fun heq => hand ?_⟩
      obtain ⟨hqp, hc⟩ := List.append_inj' heq rfl
      exact ⟨hqp, List.singleton_inj.mp hc⟩

theorem Sound.addFolder (h : t.Sound) (hp : t.Known p) (hfree : t.node? p c = none) :
    (t.addFolder p c).Sound := by
  refine ⟨h.toRooted.addFolder hp hfree, ?_⟩
  rw [working_addFolder]
  exact (known_addFolder hp c _).mpr (Or.inr h.working)

/-- Nothing is added but folders. -/
structure Grown (t t' : FileTree) : Prop where
  working : t'.working = t.working
  kept : ∀ p c node, t.node? p c = some node → t'.node? p c = some node
  added : ∀ p c node, t'.node? p c = some node → t.node? p c = some node ∨ node = .folder

theorem Grown.refl (t : FileTree) : Grown t t := ⟨rfl, fun _ _ _ h => h, fun _ _ _ h => Or.inl h⟩

theorem Grown.trans {t'' : FileTree} (h : Grown t t') (h' : Grown t' t'') : Grown t t'' :=
  ⟨h'.working.trans h.working, fun p c node hc => h'.kept p c node (h.kept p c node hc),
    fun p c node hc => (h'.added p c node hc).elim (h.added p c node) Or.inr⟩

theorem Grown.keeps (h : Grown t t') : Keeps t t' := ⟨h.working, fun p c => h.kept p c .folder⟩

theorem grown_addFolder (hs : t.Sound) (hp : t.Known p) (hfree : t.node? p c = none) :
    Grown t (t.addFolder p c) := by
  refine ⟨working_addFolder p c t, fun q c' node hc => ?_, fun q c' node hc => ?_⟩
  · have hq : q ≠ p ++ [c] := by
      rintro rfl
      rw [(hs.folder_iff p c).mpr (known_of_node hc)] at hfree
      cases hfree
    have hother : ¬(q = p ∧ c' = c) := by
      rintro ⟨rfl, rfl⟩
      rw [hc] at hfree
      cases hfree
    rw [node?_addFolder hp, if_neg hq, if_neg hother, hc]
  · rw [node?_addFolder hp] at hc
    split at hc
    next => cases hc
    next =>
      split at hc
      next => exact Or.inr (Option.some.inj hc).symm
      next => exact Or.inl hc

/-- What making folders leaves, which lead to a folder if that succeeds. -/
structure Makes (components : List String) (t : FileTree)
    (made : Except SystemFault Unit × FileTree) : Prop where
  grown : Grown t made.2
  sound : made.2.Sound
  leads : made.1 = .ok () → ∃ q, made.2.follow components = .ok (.folder q)

/-- The name in which a path ends that is not made of slashes alone. -/
theorem locate_ok (h : t.locate components = .ok (p, c)) : ∃ above, components = above ++ [c] ∧
    t.walk (t.start components) above = .ok (.folder p) ∧ c ≠ "." ∧ c ≠ ".." ∧
      ¬Path.maxNameBytes < c.utf8ByteSize := by
  unfold locate at h
  split at h
  next => cases h
  next last hlast =>
    obtain ⟨above, rfl⟩ := List.getLast?_eq_some_iff.mp hlast
    rw [List.dropLast_concat] at h
    split at h
    next => cases h
    next => cases h
    next => cases h
    next q hwalk =>
      split at h
      next => cases h
      next hdots =>
        split at h
        next => cases h
        next hshort =>
          obtain ⟨rfl, rfl⟩ := Prod.mk.inj (Except.ok.inj h)
          exact ⟨above, rfl, hwalk, fun heq => hdots (Or.inl heq), fun heq => hdots (Or.inr heq),
            hshort⟩

/-- Components without the slashes at their end. -/
theorem exists_of_trimmed (components : List String) : ∃ named slashes,
    (components.reverse.dropWhile (· = "")).reverse = named ∧ components = named ++ slashes ∧
      (∀ c ∈ slashes, c = "") ∧ named.getLast? ≠ some "" := by
  induction components using List.reverseRecOn with
  | nil => exact ⟨[], [], rfl, rfl, fun c hc => absurd hc List.not_mem_nil, nofun⟩
  | append_singleton init c ih =>
    rw [List.reverse_append, List.reverse_singleton, List.singleton_append, List.dropWhile_cons]
    by_cases hc : c = ""
    · obtain ⟨named, slashes, hnamed, rfl, hslashes, hlast⟩ := ih
      rw [if_pos (decide_eq_true hc)]
      refine ⟨named, slashes ++ [c], hnamed, List.append_assoc .., fun c' hc' => ?_, hlast⟩
      rcases List.mem_append.mp hc' with hc' | hc'
      · exact hslashes c' hc'
      · rw [List.mem_singleton.mp hc', hc]
    · rw [if_neg (by simpa using hc)]
      refine ⟨init ++ [c], [], by simp, (List.append_nil _).symm,
        fun c hc => absurd hc List.not_mem_nil, ?_⟩
      rw [List.getLast?_concat]
      exact fun heq => hc (Option.some.inj heq)

theorem walk_slashes {slashes : List String} (h : ∀ c ∈ slashes, c = "") (p : List String) :
    t.walk p slashes = .ok (.folder p) := by
  induction slashes with
  | nil => rfl
  | cons c rest ih =>
    rw [h c List.mem_cons_self, walk_stays (by decide)]
    exact ih fun c hc => h c (List.mem_cons_of_mem _ hc)

theorem makes_makeFolder (hs : t.Sound) (components : List String) :
    Makes components t (t.makeFolder components) := by
  obtain ⟨named, slashes, hnamed, hall, hslashes, hlast⟩ := exists_of_trimmed components
  unfold makeFolder
  dsimp only
  rw [hnamed]
  split
  next => exact ⟨.refl t, hs, nofun⟩
  next p c hlocate =>
    obtain ⟨above, rfl, hwalk, hdot, hup, hshort⟩ := locate_ok hlocate
    have hp : t.Known p := hs.known_of_walk (hs.start _) hwalk
    split
    next => exact ⟨.refl t, hs, nofun⟩
    next hnode =>
      have hfree : t.node? p c = none := Option.not_isSome_iff_eq_none.mp hnode
      have hgrown := grown_addFolder hs hp hfree
      refine ⟨hgrown, hs.addFolder hp hfree, fun _ => ⟨p ++ [c], ?_⟩⟩
      -- the way to the folder above is still there, and the new one stands in that folder
      have hempty : c ≠ "" := fun heq => hlast (by rw [List.getLast?_concat, heq])
      have hstart : (t.addFolder p c).start components = t.start (above ++ [c]) := by
        refine start_eq_of_head? hgrown.working ?_
        rw [hall]
        cases above with
        | nil => rfl
        | cons a above => rfl
      have hstays : Path.stays c = false := by
        unfold Path.stays
        rw [decide_eq_false hempty, decide_eq_false hdot]
        rfl
      have hnew : (t.addFolder p c).node? p c = some .folder := by
        have hne : p ≠ p ++ [c] := fun heq =>
          absurd (List.self_eq_append_right.mp heq) (List.cons_ne_nil _ _)
        rw [node?_addFolder hp, if_neg hne, if_pos ⟨rfl, rfl⟩]
      unfold follow
      rw [hstart, hall, List.append_assoc, walk_append (hgrown.keeps.walk hwalk),
        List.singleton_append, walk_folder hstays hup hshort hnew]
      exact walk_slashes hslashes _

theorem Makes.settle {made : Except SystemFault Unit × FileTree} (h : Makes components t made) :
    Makes components t (settle components made) := by
  obtain ⟨result, t'⟩ := made
  cases result with
  | ok _ => exact h
  | error fault =>
    refine ⟨h.grown, h.sound, fun hok => ?_⟩
    have hfolder : t'.isFolder components = true := by
      by_contra hnot
      simp [FileTree.settle, hnot] at hok
    show ∃ q, t'.follow components = .ok (.folder q)
    unfold isFolder at hfolder
    split at hfolder
    next q hq => exact ⟨q, hq⟩
    next => cases hfolder

theorem makes_makeNested (hs : t.Sound) (components : List String) (above : List (List String)) :
    Makes components t (makeNested (components :: above) t) := by
  induction above generalizing components t with
  | nil =>
    have hmade := makes_makeFolder hs components
    unfold makeNested
    split
    next t1 heq =>
      rw [heq] at hmade
      obtain ⟨hgrown, hs1, -⟩ := hmade
      have hagain := makes_makeFolder hs1 components
      exact Makes.settle ⟨hgrown.trans hagain.grown, hagain.sound, hagain.leads⟩
    next => exact hmade.settle
  | cons nearest above ih =>
    have hmade := makes_makeFolder hs components
    unfold makeNested
    split
    next t1 heq =>
      rw [heq] at hmade
      obtain ⟨hgrown, hs1, -⟩ := hmade
      have habove := ih hs1 nearest
      split
      next fault t2 heq2 =>
        rw [heq2] at habove
        exact ⟨hgrown.trans habove.grown, habove.sound, nofun⟩
      next t2 heq2 =>
        rw [heq2] at habove
        have hagain := makes_makeFolder habove.sound components
        exact Makes.settle ⟨(hgrown.trans habove.grown).trans hagain.grown, hagain.sound,
          hagain.leads⟩
    next => exact hmade.settle

theorem makeFolders_grown (hs : t.Sound) (path : String) :
    Grown t (t.makeFolders path).2 ∧ (t.makeFolders path).2.Sound := by
  unfold makeFolders
  split
  next => exact ⟨.refl t, hs⟩
  next =>
    split
    next => exact ⟨.refl t, hs⟩
    next =>
      have hmakes := makes_makeNested hs (Path.components path)
        (Path.starts (Path.tidy (Path.components path)).dropLast).reverse
      exact ⟨hmakes.grown, hmakes.sound⟩

/-- A path whose folders have been made leads to a folder. -/
theorem makeFolders_ok {path : String} (hs : t.Sound) (hpath : path ≠ "")
    (h : t.makeFolders path = (.ok (), t')) : ∃ q, t'.look path = .ok (.folder q) := by
  unfold makeFolders at h
  rw [if_neg hpath] at h
  split at h
  next => cases h
  next hfits =>
    have hmakes := makes_makeNested hs (Path.components path)
      (Path.starts (Path.tidy (Path.components path)).dropLast).reverse
    obtain ⟨q, hq⟩ := hmakes.leads (congrArg Prod.fst h)
    refine ⟨q, look_eq_folder.mpr ⟨hpath, by simpa using hfits, ?_⟩⟩
    rw [show t' = _ from (congrArg Prod.snd h).symm]
    exact hq

/-! ## Writing files -/

/-- A file that is written below a folder stands under its name there, unless it is a device. -/
theorem writeFile_join {folder name : String} {data : Bytes} {place : List String}
    (hplace : t.look folder = .ok (.folder place)) (hname : Store.isValidName name = true)
    (h : t.writeFile (Path.join folder name) data = (.ok (), t')) :
    Store.Directory.reaches folder name = true ∧
      (t.node? place name = some .device ∧ t' = t ∨
        t.node? place name ≠ some .folder ∧ t.node? place name ≠ some .device ∧
          t' = t.setNode place name (.file data)) := by
  obtain ⟨above, -, hjoin, hway⟩ := exists_way_join hplace (Path.not_mem_of_isValidName hname)
  unfold writeFile at h
  split at h
  next => cases h
  next =>
    split at h
    next => cases h
    next hfits =>
      split at h
      next => cases h
      next => cases h
      next p c hlocate =>
        obtain ⟨above', hcomponents, hwalk, -, -, hshort⟩ := locate_ok hlocate
        obtain ⟨rfl, hlast⟩ := List.append_inj' (hjoin.symm.trans hcomponents) rfl
        obtain rfl := List.singleton_inj.mp hlast
        rw [hjoin, hway] at hwalk
        obtain rfl := Place.folder.inj (Except.ok.inj hwalk)
        refine ⟨?_, ?_⟩
        · unfold Store.Directory.reaches
          rw [decide_eq_true (Nat.not_lt.mp hshort)]
          simpa using hfits
        · split at h
          next => cases h
          next =>
            split at h
            next => cases h
            next hnode => exact Or.inl ⟨hnode, (Prod.mk.inj h).2.symm⟩
            next hnode => exact Or.inr ⟨by rw [hnode]; nofun, by rw [hnode]; nofun,
              (Prod.mk.inj h).2.symm⟩
            next hnode => exact Or.inr ⟨by rw [hnode]; nofun, by rw [hnode]; nofun,
              (Prod.mk.inj h).2.symm⟩

/-! ## Trees that are sound -/

/-- The folders that lead to a working directory are made one below the other. -/
theorem rooted_ofWorking (names : List String) (h : t.Rooted) (hp : t.Known p)
    (hfree : ∀ c, t.node? p c = none) :
    let made := names.foldl
      (fun (at_ : List String × FileTree) c => (at_.1 ++ [c], at_.2.addFolder at_.1 c)) (p, t)
    made.2.Rooted ∧ made.2.Known (p ++ names) ∧ made.2.working = t.working := by
  induction names generalizing t p with
  | nil => exact ⟨h, by rwa [List.append_nil], rfl⟩
  | cons c names ih =>
    have hnew : (t.addFolder p c).Known (p ++ [c]) := (known_addFolder hp c _).mpr (Or.inl rfl)
    have hempty : ∀ c', (t.addFolder p c).node? (p ++ [c]) c' = none := fun c' => by
      rw [node?_addFolder hp, if_pos rfl]
    obtain ⟨hrooted, hknown, hworking⟩ := ih (h.addFolder hp (hfree c)) hnew hempty
    rw [List.append_assoc] at hknown
    exact ⟨hrooted, hknown, hworking.trans (working_addFolder p c t)⟩

theorem sound_ofWorking (path : List String) : (ofWorking path).Sound := by
  have hroot : Rooted { folders := [([], .empty)], working := path } := by
    refine ⟨rfl, fun p c => ?_⟩
    have hnot : ¬Known (p ++ [c]) { folders := [([], .empty)], working := path } := by
      unfold Known folder?
      cases p with
      | nil => exact nofun
      | cons a p => exact nofun
    refine ⟨fun hnode => ?_, fun hknown => absurd hknown hnot⟩
    unfold node? folder? at hnode
    cases p with
    | nil => cases hnode
    | cons a p => cases hnode
  obtain ⟨hrooted, hknown, hworking⟩ := rooted_ofWorking path hroot hroot.root fun c => rfl
  refine ⟨hrooted, ?_⟩
  rw [List.nil_append] at hknown
  rw [show (ofWorking path).working = path from hworking]
  exact hknown

theorem Sound.makeFolders (hs : t.Sound) (path : String) : (t.makeFolders path).2.Sound :=
  (makeFolders_grown hs path).2

theorem Sound.writeFile (hs : t.Sound) (path : String) (data : Bytes) :
    (t.writeFile path data).2.Sound := by
  unfold FileTree.writeFile
  split
  next => exact hs
  next =>
    split
    next => exact hs
    next =>
      split
      next => exact hs
      next => exact hs
      next p c hlocate =>
        obtain ⟨above, -, hwalk, -, -, -⟩ := locate_ok hlocate
        have hp : t.Known p := hs.known_of_walk (hs.start _) hwalk
        split
        next => exact hs
        next =>
          split
          next => exact hs
          next => exact hs
          next hnode => exact hs.setNode hp (by rw [hnode]; nofun) nofun
          next hnode => exact hs.setNode hp (by rw [hnode]; nofun) nofun

end SnapshotRetention.FileTree
