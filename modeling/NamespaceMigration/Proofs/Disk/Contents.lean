import NamespaceMigration.Proofs.Disk.Places

/-! Disks without links. A path leads to one place there, whatever is on the disk, so the contents are a
map from places to bytes, and every operation changes it at the places of its paths only. -/
namespace NamespaceMigration
namespace Disk

variable {d d' : Disk}

def LinkFree (d : Disk) : Prop := ∀ place target, d.entry? place ≠ some (.link target)

theorem linkFree_of_entries (h : ∀ entry ∈ d.entries, ∀ target, entry.2 ≠ .link target) :
    d.LinkFree := by
  intro place target hlink
  by_cases hroot : place = []
  · subst hroot
    cases hlink
  · rw [entry?_of_ne_nil hroot, List.lookup_eq_some_iff] at hlink
    obtain ⟨before, after, hentries, -⟩ := hlink
    exact h (place, .link target) (by simp [hentries]) target rfl

/-- What the file at a place holds. -/
def content? (d : Disk) (place : Place) : Option Bytes :=
  match d.entry? place with
  | some (.file content) => some content
  | _ => none

/-- Where a step leads without links. -/
def walk (place : Place) : PathPart → Place
  | .root => []
  | .here => place
  | .up => place.dropLast
  | .named name => place ++ [name]

/-- Where a path leads without links. -/
def placeOf (home : Place) (path : Text) : Place := (steps path).foldl walk home

theorem followSteps_linkFree (h : d.LinkFree) {last : Bool}
    {expand : Place → List PathPart → Except IoError Place} {place q : Place} {steps : List PathPart}
    (hfollow : d.followSteps last expand place steps = .ok q) : q = steps.foldl walk place := by
  induction steps generalizing place with
  | nil =>
    cases hfollow
    rfl
  | cons step rest ih =>
    cases step with
    | root | here | up =>
      rw [followSteps] at hfollow
      exact ih hfollow
    | named name =>
      have hlast (hrest : rest.isEmpty) (hq : Except.ok (place ++ [name]) = (.ok q : Except IoError _)) :
          q = rest.foldl walk (place ++ [name]) := by
        rw [List.isEmpty_iff.mp hrest]
        exact (Except.ok.inj hq).symm
      rw [followSteps] at hfollow
      split at hfollow
      · exact ih hfollow
      · split_ifs at hfollow with hrest
        exact hlast hrest hfollow
      · rename_i target hlink
        exact absurd hlink (h _ target)
      · split_ifs at hfollow with hrest
        exact hlast hrest hfollow

theorem locate_linkFree (h : d.LinkFree) {last : Bool} {path : Text} {q : Place}
    (hlocate : d.locate last path = .ok q) : q = placeOf d.home path := by
  rw [locate] at hlocate
  split_ifs at hlocate
  exact followSteps_linkFree h hlocate

theorem find_linkFree (h : d.LinkFree) {last : Bool} {path : Text} {q : Place} {e : DiskEntry}
    (hfind : d.find last path = .ok (q, e)) : q = placeOf d.home path := by
  obtain ⟨place, hlocate, hentry⟩ := bind_eq_ok hfind
  split at hentry
  · cases hentry
    exact locate_linkFree h hlocate
  · cases hentry

theorem lookup_map_replace (entries : List (Place × DiskEntry)) (p q : Place) (e : DiskEntry) :
    (entries.map fun old => if old.1 = p then (p, e) else old).lookup q =
      if q = p then (entries.lookup p).map fun _ => e else entries.lookup q := by
  induction entries with
  | nil => simp
  | cons entry entries ih =>
    obtain ⟨k, old⟩ := entry
    rw [List.map_cons]
    dsimp only
    by_cases hk : k = p
    · subst hk
      rw [if_pos rfl, List.lookup_cons, List.lookup_cons, List.lookup_cons, ih]
      by_cases hq : q = k
      · subst hq
        simp
      · simp [beq_eq_false_iff_ne.mpr hq, hq]
    · rw [if_neg hk, List.lookup_cons, List.lookup_cons, List.lookup_cons, ih]
      by_cases hq : q = p
      · subst hq
        simp [beq_eq_false_iff_ne.mpr (Ne.symm hk)]
      · rw [if_neg hq, if_neg hq]

theorem lookup_append_singleton (entries : List (Place × DiskEntry)) {p : Place} (q : Place)
    (e : DiskEntry) (h : entries.lookup p = none) :
    (entries ++ [(p, e)]).lookup q = if q = p then some e else entries.lookup q := by
  induction entries with
  | nil =>
    by_cases hq : q = p
    · subst hq
      simp
    · simp [List.lookup_cons, beq_eq_false_iff_ne.mpr hq, hq]
  | cons entry entries ih =>
    obtain ⟨k, old⟩ := entry
    rw [List.lookup_cons] at h
    have hk : p ≠ k := by
      rintro rfl
      simp at h
    rw [beq_eq_false_iff_ne.mpr hk] at h
    rw [List.cons_append, List.lookup_cons, List.lookup_cons, ih h]
    by_cases hq : q = k
    · subst hq
      simp [Ne.symm hk]
    · simp [beq_eq_false_iff_ne.mpr hq]

theorem entry?_put (d : Disk) {p : Place} (hp : p ≠ []) (e : DiskEntry) (q : Place) :
    Disk.entry? (d.put p e) q = if q = p then some e else d.entry? q := by
  by_cases hq : q = []
  · subst hq
    rw [if_neg (Ne.symm hp)]
    rfl
  · rw [entry?_of_ne_nil hq, entry?_of_ne_nil hq, put]
    split_ifs with hsome heq heq
    · subst heq
      obtain ⟨old, hold⟩ := Option.isSome_iff_exists.mp hsome
      rw [lookup_map_replace, if_pos rfl, hold]
      rfl
    · rw [lookup_map_replace, if_neg heq]
    · rw [lookup_append_singleton _ _ _ (Option.not_isSome_iff_eq_none.mp hsome), if_pos heq]
    · rw [lookup_append_singleton _ _ _ (Option.not_isSome_iff_eq_none.mp hsome), if_neg heq]

/-- The files of one disk are those of the other, apart from some places. There are no links still. -/
structure SameBut (places : List Place) (d d' : Disk) : Prop where
  linkFree : d'.LinkFree
  home : d'.home = d.home
  content : ∀ place, place ∉ places → d'.content? place = d.content? place

section SameBut

variable {places : List Place}

theorem SameBut.refl (h : d.LinkFree) : SameBut places d d := ⟨h, rfl, fun _ _ => rfl⟩

theorem SameBut.trans {d'' : Disk} (h : SameBut places d d') (h' : SameBut places d' d'') :
    SameBut places d d'' :=
  ⟨h'.linkFree, h'.home.trans h.home, fun place hplace =>
    (h'.content place hplace).trans (h.content place hplace)⟩

theorem SameBut.mono {more : List Place} (h : SameBut places d d') (hsub : places ⊆ more) :
    SameBut more d d' :=
  ⟨h.linkFree, h.home, fun place hplace => h.content place fun hmem => hplace (hsub hmem)⟩

theorem sameBut_put (h : d.LinkFree) {p : Place} (hp : p ≠ []) {e : DiskEntry}
    (he : ∀ target, e ≠ .link target) : SameBut [p] d (d.put p e) := by
  refine ⟨fun place target => ?_, ?_, fun place hplace => ?_⟩
  · rw [entry?_put d hp]
    split_ifs
    · exact fun heq => he target (Option.some.inj heq)
    · exact h place target
  · rw [put]
    split_ifs <;> rfl
  · rw [content?, content?, entry?_put d hp, if_neg (by simpa using hplace)]

theorem ne_nil_of_ne_directory {p : Place} (h : d.entry? p ≠ some .directory) : p ≠ [] := by
  rintro rfl
  exact h rfl

theorem sameBut_erase (h : d.LinkFree) (p : Place) : SameBut [p] d (d.erase p) := by
  refine ⟨fun place target hlink => ?_, rfl, fun place hplace => ?_⟩
  · have hroot : place ≠ [] := ne_nil_of_ne_directory (by rw [hlink]; exact fun heq => nomatch heq)
    rw [entry?_erase_of_ne_nil d p hroot] at hlink
    split_ifs at hlink
    exact h place target hlink
  · by_cases hroot : place = []
    · subst hroot
      rfl
    · rw [content?, content?, entry?_erase_of_ne_nil d p hroot, if_neg (by simpa using hplace)]

theorem sameBut_makeDirectory (h : d.LinkFree) {path : Text}
    (hmake : d.makeDirectory path = .ok d') : SameBut [] d d' := by
  obtain ⟨place, -, hmake⟩ := bind_eq_ok hmake
  split at hmake
  · cases hmake
  · rename_i hnone
    cases hmake
    have hplace : place ≠ [] := ne_nil_of_ne_directory (by rw [hnone]; exact fun heq => nomatch heq)
    have hput := sameBut_put h hplace (e := .directory) fun _ heq => nomatch heq
    refine ⟨hput.linkFree, hput.home, fun q _ => ?_⟩
    by_cases hq : q = place
    · subst hq
      rw [content?, content?, entry?_put d hplace, if_pos rfl, hnone]
    · exact hput.content q (by simpa using hq)

theorem sameBut_makeDirectoriesFrom (h : d.LinkFree) {depth : Nat} {path : Text}
    (hmake : d.makeDirectoriesFrom depth path = .ok d') : SameBut [] d d' := by
  induction depth generalizing path d' with
  | zero => exact sameBut_makeDirectory h hmake
  | succ depth ih =>
    rw [makeDirectoriesFrom] at hmake
    split at hmake
    · rename_i made hmade
      cases hmake
      exact sameBut_makeDirectory h hmade
    · split at hmake
      · cases hmake
      · exact sameBut_makeDirectory h hmake
      · obtain ⟨above, habove, hmake⟩ := bind_eq_ok hmake
        have hfirst := ih habove
        split_ifs at hmake
        · cases hmake
          exact hfirst
        · exact hfirst.trans (sameBut_makeDirectory hfirst.linkFree hmake)
    · split_ifs at hmake
      cases hmake
      exact .refl h

theorem sameBut_makeDirectories (h : d.LinkFree) {path : Text}
    (hmake : d.makeDirectories path = .ok d') : SameBut [] d d' := by
  rw [makeDirectories] at hmake
  split_ifs at hmake
  · cases hmake
    exact .refl h
  · exact sameBut_makeDirectoriesFrom h hmake

theorem sameBut_write (h : d.LinkFree) {path : Text} {content : Bytes}
    (hwrite : d.write path content = .ok d') : SameBut [placeOf d.home (dropSlashes path)] d d' := by
  obtain ⟨place, hlocate, hwrite⟩ := bind_eq_ok hwrite
  rw [← locate_linkFree h hlocate]
  split at hwrite
  · cases hwrite
  · rename_i hentry
    split_ifs at hwrite
    cases hwrite
    exact sameBut_put h (ne_nil_of_ne_directory hentry) fun _ heq => nomatch heq

theorem content?_write (h : d.LinkFree) {path : Text} {content : Bytes}
    (hwrite : d.write path content = .ok d') :
    d'.content? (placeOf d.home (dropSlashes path)) = some content := by
  obtain ⟨place, hlocate, hwrite⟩ := bind_eq_ok hwrite
  rw [← locate_linkFree h hlocate]
  split at hwrite
  · cases hwrite
  · rename_i hentry
    split_ifs at hwrite
    cases hwrite
    rw [content?, entry?_put d (ne_nil_of_ne_directory hentry), if_pos rfl]

theorem sameBut_remove (h : d.LinkFree) {path : Text} (hremove : d.remove path = .ok d') :
    SameBut [placeOf d.home path] d d' := by
  obtain ⟨place, e, hfind, he, rfl⟩ := remove_eq_ok hremove
  rw [← find_linkFree h hfind]
  exact sameBut_erase h place

theorem sameBut_move (h : d.LinkFree) {source target : Text} (hmove : d.move source target = .ok d') :
    SameBut [placeOf d.home source, placeOf d.home target] d d' := by
  obtain ⟨⟨place, e⟩, hfind, hmove⟩ := bind_eq_ok hmove
  obtain ⟨goal, hlocate, hmove⟩ := bind_eq_ok hmove
  rw [← find_linkFree h hfind, ← locate_linkFree h hlocate]
  have hlink : ∀ target, e ≠ .link target := by
    rintro target rfl
    exact h place target (entry?_of_find hfind)
  split at hmove
  · cases hmove
  · rename_i hentry
    cases hmove
    have herase : SameBut [place, goal] d (d.erase place) := (sameBut_erase h place).mono (by simp)
    exact herase.trans ((sameBut_put herase.linkFree (ne_nil_of_ne_directory hentry) hlink).mono (by simp))

theorem content?_move (h : d.LinkFree) {source target : Text} {content : Bytes}
    (hcontent : d.content? (placeOf d.home source) = some content)
    (hmove : d.move source target = .ok d') : d'.content? (placeOf d.home target) = some content := by
  obtain ⟨⟨place, e⟩, hfind, hmove⟩ := bind_eq_ok hmove
  obtain ⟨goal, hlocate, hmove⟩ := bind_eq_ok hmove
  rw [← find_linkFree h hfind, content?, entry?_of_find hfind] at hcontent
  rw [← locate_linkFree h hlocate]
  split at hmove
  · cases hmove
  · rename_i hentry
    cases hmove
    rw [content?, entry?_put _ (ne_nil_of_ne_directory hentry), if_pos rfl]
    exact hcontent

end SameBut
end Disk
end NamespaceMigration
