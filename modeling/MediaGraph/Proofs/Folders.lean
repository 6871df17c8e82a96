import MediaGraph.CommandLine.Folder

/-! Files that keep what is written to them.
In a working directory a path leads to the same place after a write, apart from the place that was
free before and is a file then. -/
namespace MediaGraph.CommandLine

/-- Files that keep a document once it is written, and the listing all along. -/
structure Keeps {σ : Type} (files : Files (StateM σ)) (listing document : String) (s : σ) : Prop where
  still : ∀ text t, files.read listing s = (.ok text,t) → t = s
  stored : ∀ text t, files.write document text s = (.ok (),t) → files.read document t = (.ok text,t)
  spared : ∀ listed text t, files.read listing s = (.ok listed,s) →
    files.write document text s = (.ok (),t) → files.read listing t = (.ok listed,t)

theorem Except.bind_done {ε α β : Type} {x : Except ε α} {f : α → Except ε β} {b : β}
    (done : (x >>= f) = .ok b) : ∃ a, x = .ok a ∧ f a = .ok b := by
  cases x with
  | error e => cases done
  | ok a => exact ⟨a,rfl,done⟩

namespace Folder
variable {folder after : Folder} {path text : String} {name : String}

/-- A path leads to a file of the working directory, be it there or still to be made. -/
def Leads (folder : Folder) (path name : String) : Prop :=
  folder.follow path (names path) = .ok (.file name) ∨
    folder.follow path (names path) = .ok (.free (some name))

def Holds (folder : Folder) (name text : String) (after : Folder) : Prop :=
  ∀ other, after.files.lookup other = if other = name then some text else folder.files.lookup other

theorem lookup_cons_holds (files : List (String × String)) (others : ∀ other, other ≠ name →
    files.lookup other = folder.files.lookup other) (printed : String) :
    folder.Holds name text ⟨(name,text) :: files,printed⟩ := by
  intro other
  by_cases same : other = name
  · rw [if_pos same,same]
    exact List.lookup_cons_self
  · rw [if_neg same,← others other same]
    simp only [List.lookup_cons,beq_eq_false_iff_ne.mpr same]

theorem lookup_filter (files : List (String × String)) {other : String} (apart : other ≠ name) :
    (files.filter fun file => file.1 != name).lookup other = files.lookup other := by
  induction files with
  | nil => rfl
  | cons file rest ih =>
    obtain ⟨key,held⟩ := file
    by_cases same : key = name
    · subst same
      simp [List.lookup_cons,ih,beq_eq_false_iff_ne.mpr apart]
    · simp [List.lookup_cons,same,ih]

theorem written_holds (leads : folder.Leads path name)
    (wrote : folder.written path text = .ok after) :
    requirePath path = .ok () ∧ asksDirectory path = false ∧ folder.Holds name text after := by
  obtain ⟨_,fits,wrote⟩ := Except.bind_done wrote
  cases asks : asksDirectory path with
  | true =>
    -- Such a path is refused, whatever it leads to.
    rw [asks] at wrote
    obtain ⟨_,_,wrote⟩ := Except.bind_done wrote
    obtain ⟨_,_,wrote⟩ := Except.bind_done wrote
    cases wrote
  | false =>
    rw [asks] at wrote
    obtain ⟨spot,led,wrote⟩ := Except.bind_done wrote
    refine ⟨fits,rfl,?_⟩
    rcases leads with found | found
    · rw [found] at led
      cases led
      cases wrote
      exact lookup_cons_holds _ (fun other apart => lookup_filter folder.files apart) _
    · rw [found] at led
      cases led
      cases wrote
      exact lookup_cons_holds _ (fun _ _ => rfl) _

def moved (name : String) (spot : Spot) : Spot :=
  if spot = .free (some name) then .file name else spot

theorem within_moved (holds : folder.Holds name text after) (up : List String) (next : String) :
    Spot.within after up next = moved name (Spot.within folder up next) := by
  unfold Spot.within
  split
  · rw [holds next]
    by_cases same : next = name
    · subst same
      cases folder.files.lookup next <;> simp [moved]
    · cases folder.files.lookup next <;> simp [moved,same]
  split
  · simp [moved]
  split
  · cases Device.named? next <;> simp [moved]
  · simp [moved]

theorem enter_moved (holds : folder.Holds name text after) {spot last : Spot} {next : String}
    (entered : Spot.enter folder spot next = .ok last) :
    Spot.enter after (moved name spot) next = .ok (moved name last) := by
  -- Only a directory can be gone through, and no directory moves.
  cases spot with
  | file _ => cases entered
  | device _ => cases entered
  | free _ => cases entered
  | directory up =>
    have same : moved name (.directory up) = .directory up := rfl
    simp only [same,Spot.enter,Spot.requireDirectory,bind,Except.bind] at entered ⊢
    split at entered
    next dot =>
      cases entered
      rw [if_pos dot]
      rfl
    next notDot =>
      rw [if_neg notDot]
      split at entered
      next dots =>
        cases entered
        rw [if_pos dots]
        rfl
      next notDots =>
        rw [if_neg notDots]
        split at entered
        next => cases entered
        next fits =>
          cases entered
          rw [if_neg fits]
          exact congrArg Except.ok (within_moved holds up next)

theorem follow_moved (holds : folder.Holds name text after) {spot : Spot} {chosen : List String}
    (followed : folder.follow path chosen = .ok spot) :
    after.follow path chosen = .ok (moved name spot) := by
  have through {first : Spot} (walked : chosen.foldlM (Spot.enter folder) first = .ok spot) :
      chosen.foldlM (Spot.enter after) (moved name first) = .ok (moved name spot) := by
    clear followed
    induction chosen generalizing first with
    | nil =>
      cases walked
      rfl
    | cons next rest ih =>
      rw [List.foldlM_cons] at walked ⊢
      obtain ⟨second,entered,remaining⟩ := Except.bind_done walked
      rw [enter_moved holds entered]
      exact ih remaining
  have moves := through followed
  rw [apply_ite (moved name)] at moves
  exact moves

theorem content_stored (leads : folder.Leads path name)
    (wrote : folder.written path text = .ok after) : after.content path = .ok text := by
  obtain ⟨fits,asks,holds⟩ := written_holds leads wrote
  have led : after.follow path (names path) = .ok (.file name) := by
    rcases leads with found | found
    · exact follow_moved holds found
    · exact (follow_moved holds found).trans (by simp [moved])
  have held : after.files.lookup name = some text := (holds name).trans (if_pos rfl)
  simp only [content,fits,led,asks,held,bind,Except.bind]
  rfl

theorem content_spared {listing listed : String} (holds : folder.Holds name text after)
    (apart : ¬ folder.Leads listing name) (read : folder.content listing = .ok listed) :
    after.content listing = .ok listed := by
  unfold content at read ⊢
  obtain ⟨_,fits,read⟩ := Except.bind_done read
  obtain ⟨spot,led,read⟩ := Except.bind_done read
  have same : moved name spot = spot := by
    refine if_neg ?_
    rintro rfl
    exact apart (Or.inr led)
  have moves := follow_moved holds led
  rw [fits,moves,same]
  cases spot with
  | directory _ => cases read
  | free _ => cases read
  | device _ => exact read
  | file other =>
    have different : other ≠ name := fun equal => apart (Or.inl (equal ▸ led))
    have kept := (holds other).trans (if_neg different)
    simp only [bind,Except.bind,kept] at read ⊢
    exact read

theorem write_done {t : Folder} (wrote : write path text folder = (.ok (),t)) :
    folder.written path text = .ok t := by
  cases made : folder.written path text with
  | error fault =>
    have failed : write path text folder = (.error fault,folder) := by
      simp only [write,bind,StateT.bind,get,getThe,MonadStateOf.get,StateT.get,pure,made]
      rfl
    rw [failed] at wrote
    cases wrote
  | ok next =>
    have done : write path text folder = (.ok (),next) := by
      simp only [write,bind,StateT.bind,get,getThe,MonadStateOf.get,StateT.get,pure,made]
      rfl
    rw [done] at wrote
    cases wrote
    rfl

theorem keeps {listing document : String} (leads : folder.Leads document name)
    (apart : ¬ folder.Leads listing name) : Keeps access listing document folder where
  still _ _ read := (congrArg (·.2) read).symm
  stored _ t wrote := congrArg (·,t) (content_stored leads (write_done wrote))
  spared _ _ t read wrote :=
    have holds := (written_holds leads (write_done wrote)).2.2
    congrArg (·,t) (content_spared holds apart (congrArg (·.1) read))

end Folder
end MediaGraph.CommandLine
