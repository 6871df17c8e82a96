import MediaGraph.CommandLine.Run
import MediaGraph.Proofs.Documents
import MediaGraph.Proofs.Folders

/-! Filters by way of a document, and filters taken from their table.
A run that succeeds is opened step by step into what was read and written. Once both ways load the
same catalog, all that follows in a run is the same. -/
namespace MediaGraph.CommandLine

theorem ok_of_toOption {ε α : Type} {x : Except ε α} {a : α} (found : x.toOption = some a) :
    x = .ok a := by
  cases x with
  | error e => cases found
  | ok b => exact congrArg Except.ok (Option.some.inj found)

theorem pair_of_fst {α β : Type} {x : α × β} {a : α} (first : x.1 = a) : x = (a,x.2) := by
  rw [← first]

section
variable {σ α β : Type} {files : Files (StateM σ)} {s t : σ}

theorem bind_of_ok {x : Run (StateM σ) α} {a : α} {f : α → Run (StateM σ) β}
    (done : x s = (.ok a,t)) : (x >>= f) s = f a t := by
  simp only [bind,ExceptT.bind,ExceptT.mk,StateT.bind,done]
  rfl

theorem bind_of_error {x : Run (StateM σ) α} {e : Failure} {f : α → Run (StateM σ) β}
    (failed : x s = (.error e,t)) : (x >>= f) s = (.error e,t) := by
  simp only [bind,ExceptT.bind,ExceptT.mk,StateT.bind,failed]
  rfl

theorem bind_done {x : Run (StateM σ) α} {f : α → Run (StateM σ) β} {b : β}
    (done : (x >>= f) s = (.ok b,t)) : ∃ a u, x s = (.ok a,u) ∧ f a u = (.ok b,t) := by
  rcases first : x s with ⟨e | a,u⟩
  · rw [bind_of_error first] at done
    cases done
  · rw [bind_of_ok first] at done
    exact ⟨a,u,rfl,done⟩

theorem bind_same {x y : Run (StateM σ) α} (f : α → Run (StateM σ) β) (same : x s = y s) :
    (x >>= f) s = (y >>= f) s := by
  simp only [bind,ExceptT.bind,ExceptT.mk,StateT.bind,same]

theorem lift_done {x : StateM σ α} {a : α} (done : x s = (a,t)) :
    (liftM x : Run (StateM σ) α) s = (.ok a,t) := by
  change ((x >>= fun a => pure (Except.ok a)) : StateM σ _) s = _
  simp only [bind,StateT.bind,done]
  rfl

theorem readFile_done {what path text : String} :
    readFile files what path s = (.ok text,t) ↔ files.read path s = (.ok text,t) := by
  rcases read : files.read path s with ⟨fault | given,u⟩
  · have failed : readFile files what path s =
        (.error ⟨s!"read {what} {path}",[fault.message]⟩,u) := bind_of_ok (lift_done read)
    rw [failed]
    constructor <;> intro equal <;> cases equal
  · have done : readFile files what path s = (.ok given,u) := bind_of_ok (lift_done read)
    rw [done]
    constructor <;> intro equal <;> cases equal <;> rfl

theorem writeFile_done {path text shown : String}
    (done : writeFile files path text s = (.ok shown,t)) :
    files.write path text s = (.ok (),t) := by
  rcases wrote : files.write path text s with ⟨fault | _,u⟩
  · have failed : writeFile files path text s = (.error ⟨fault.message,[]⟩,u) :=
      bind_of_ok (lift_done wrote)
    rw [failed] at done
    cases done
  · have written : writeFile files path text s = (.ok s!"Wrote {path}\n",u) :=
      bind_of_ok (lift_done wrote)
    rw [written] at done
    cases done
    rfl

theorem loadFilters_done {path : String} {specs : List FilterSpec} :
    loadFilters files path s = (.ok specs,t) ↔
      ∃ text, files.read path s = (.ok text,t) ∧ Catalog.Listing.read text = .ok specs := by
  constructor
  · intro done
    obtain ⟨text,u,read,rest⟩ := bind_done done
    cases listed : Catalog.Listing.read text with
    | error fault =>
      rw [listed] at rest
      cases rest
    | ok given =>
      rw [listed] at rest
      cases rest
      exact ⟨text,readFile_done.mp read,listed⟩
  · rintro ⟨text,read,listed⟩
    rw [loadFilters,bind_of_ok (readFile_done.mpr read),listed]
    rfl

theorem loadCatalog_listing {path : String} {specs : List FilterSpec}
    (loaded : loadFilters files path s = (.ok specs,t)) :
    loadCatalog files (.listing path) s = (.ok (Catalog.builtin.extend specs),t) :=
  bind_of_ok loaded

theorem loadCatalog_document {path text : String} {catalog : Catalog}
    (read : files.read path s = (.ok text,t)) (given : Catalog.Document.read text = .ok catalog) :
    loadCatalog files (.document path) s = (.ok catalog,t) := by
  rw [loadCatalog,bind_of_ok (readFile_done.mpr read),given]
  rfl

theorem perform_catalog_done {listing document shown : String}
    (done : perform files (.catalog listing document) s = (.ok shown,t)) :
    ∃ specs u, loadFilters files listing s = (.ok specs,u) ∧
      files.write document (Catalog.Document.write (Catalog.empty.extend specs)).indented u =
        (.ok (),t) := by
  obtain ⟨specs,u,loaded,wrote⟩ := bind_done done
  exact ⟨specs,u,loaded,writeFile_done wrote⟩

theorem perform_compile_same {script : String} {source other : CatalogSource} {out : Option String}
    (same : loadCatalog files source s = loadCatalog files other s) :
    perform files (.compile script source out) s = perform files (.compile script other out) s :=
  bind_same _ same

theorem run_same {args others : List String} {request other : Request}
    (asked : Request.read args = .ok request) (wanted : Request.read others = .ok other)
    (same : perform files request s = perform files other s) : run files args s = run files others s := by
  simp only [run,asked,wanted,bind,StateT.bind,ExceptT.run,same]

theorem run_done {args : List String} {request : Request} {outcome : Outcome}
    (asked : Request.read args = .ok request) (ran : run files args s = (outcome,t))
    (succeeded : outcome.code = 0) : ∃ shown, perform files request s = (.ok shown,t) := by
  rcases performed : perform files request s with ⟨failure | shown,u⟩
  · simp only [run,asked,bind,StateT.bind,ExceptT.run,performed] at ran
    cases ran
    cases succeeded
  · simp only [run,asked,bind,StateT.bind,ExceptT.run,performed] at ran
    cases ran
    exact ⟨shown,rfl⟩

/-- A table that was turned into a document is the same catalog by either way, and any script comes
to the same graph or the same failure. -/
theorem offline_agrees {listing document : String} {args : List String} {outcome : Outcome}
    (keeps : Keeps files listing document s)
    (asked : Request.read args = .ok (.catalog listing document))
    (ran : run files args s = (outcome,t)) (succeeded : outcome.code = 0) :
    (∃ text specs, files.read listing s = (.ok text,s) ∧ Catalog.Listing.read text = .ok specs ∧
      loadCatalog files (.document document) t = (.ok (Catalog.builtin.extend specs),t) ∧
      loadCatalog files (.listing listing) t = (.ok (Catalog.builtin.extend specs),t)) ∧
    ∀ script out offline direct,
      Request.read offline = .ok (.compile script (.document document) out) →
      Request.read direct = .ok (.compile script (.listing listing) out) →
      run files offline t = run files direct t := by
  obtain ⟨shown,done⟩ := run_done asked ran succeeded
  obtain ⟨specs,u,loaded,wrote⟩ := perform_catalog_done done
  obtain ⟨text,read,listed⟩ := loadFilters_done.mp loaded
  obtain rfl := keeps.still text u read
  have direct : loadCatalog files (.listing listing) t = (.ok (Catalog.builtin.extend specs),t) :=
    loadCatalog_listing (loadFilters_done.mpr ⟨text,keeps.spared _ _ _ read wrote,listed⟩)
  have offline : loadCatalog files (.document document) t = (.ok (Catalog.builtin.extend specs),t) :=
    loadCatalog_document (keeps.stored _ _ wrote) (Catalog.Document.read_write specs)
  refine ⟨⟨text,specs,read,listed,offline,direct⟩,fun script out args others wanted given => ?_⟩
  exact run_same wanted given (perform_compile_same (offline.trans direct.symm))

end

/-- A table with a row given twice, a row of a built-in name and every shape of pads, and a
script. -/
def desk : Folder where
  files :=
    [("filters.txt",
        "Filters:\n ... crop A->A\n TSC crop V->V Crop the \"input\".\n ... null V->V Mine.\n" ++
          " ... color |->V\n ..C mix N->A\n"),
      ("graph.json",
        "\x7b\"inputs\":\x7b\"in\":\"0:v\"\x7d,\"steps\":[\x7b\"from\":[\"in\"],\"filters\":[" ++
          "\x7b\"name\":\"crop\"\x7d,\x7b\"name\":\"null\"\x7d],\"to\":[\"part\"]\x7d]," ++
          "\"exports\":[[\"out\",\"part\"]]\x7d")]
  printed := ""

theorem offline_agrees_desk : ∃ t,
    run Folder.access ["catalog","--filters","filters.txt","-o","catalog.json"] desk =
      (⟨0,"Wrote catalog.json\n",""⟩,t) ∧
    run Folder.access ["compile","--script","graph.json","--catalog","catalog.json"] t =
      run Folder.access ["compile","--filters","filters.txt","--script","graph.json"] t ∧
    (run Folder.access ["compile","--filters","filters.txt","--script","graph.json"] t).1 =
      ⟨0,"[0:v]crop,null[out]\n",""⟩ := by
  have leads : desk.Leads "catalog.json" "catalog.json" :=
    Or.inr (ok_of_toOption (by decide +kernel))
  have listed : desk.follow "filters.txt" (Folder.names "filters.txt") =
      .ok (.file "filters.txt") := ok_of_toOption (by decide +kernel)
  have apart : ¬ desk.Leads "filters.txt" "catalog.json" := by
    rw [Folder.Leads,listed]
    rintro (found | found)
    · exact absurd (Except.ok.inj found) (by decide)
    · exact absurd (Except.ok.inj found) (by decide)
  have asked : Request.read ["catalog","--filters","filters.txt","-o","catalog.json"] =
      .ok (.catalog "filters.txt" "catalog.json") := ok_of_toOption (by decide +kernel)
  have offline : Request.read ["compile","--script","graph.json","--catalog","catalog.json"] =
      .ok (.compile "graph.json" (.document "catalog.json") none) :=
    ok_of_toOption (by decide +kernel)
  have direct : Request.read ["compile","--filters","filters.txt","--script","graph.json"] =
      .ok (.compile "graph.json" (.listing "filters.txt") none) :=
    ok_of_toOption (by decide +kernel)
  -- The folder is left as it comes out, so that nothing is worked out to name it.
  have ran := pair_of_fst (x := run Folder.access
    ["catalog","--filters","filters.txt","-o","catalog.json"] desk)
    (a := ⟨0,"Wrote catalog.json\n",""⟩) (by decide +kernel)
  have agrees := (offline_agrees (Folder.keeps leads apart) asked ran rfl).2 _ _ _ _ offline direct
  exact ⟨_,ran,agrees,by decide +kernel⟩

end MediaGraph.CommandLine
