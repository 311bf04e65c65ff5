import MiniLevelDB.Numbering

/-! # Opening again

A directory whose tables can be opened is opened again, with the layers it holds (`Holds.exists_open`). -/

namespace MiniLevelDB

open Effect

section

variable {dbname : Bytes} {fs : FileSystem} {l : List FileEntry} {L : Layers}

theorem Holds.mountable {open? : Option DBImpl} (h : Holds dbname ⟨fs, open?⟩ l L)
    (hfew : ∀ l, Dir dbname fs l → ∀ es, tableBytes es ∈ tableContents l → FewBlocks es) :
    ∀ calls ∈ L.tables, Mountable calls := by
  intro calls hcalls
  apply hfew l h.sound.rests.1
  rw [h.stores.tables]
  exact List.mem_map_of_mem hcalls

theorem Holds.not_faults_openDB (h : Holds dbname ⟨fs, none⟩ l L) (htables : ∀ calls ∈ L.tables, Mountable calls) :
    ¬ Faults l none .openDB := by
  rintro ⟨b, hloads, f, hf⟩
  cases hloads with
  | mounted hb =>
      have hlen := (h.sound.tidy.tables b hb).1
      rw [h.stores.tables] at hb
      obtain ⟨calls, hcalls, rfl⟩ := List.mem_map.mp hb
      obtain ⟨t, ht⟩ := (htables calls hcalls).load hlen
      rw [ht] at hf
      cases hf

/-- **A directory is opened** that holds layers whose tables can be opened. -/
theorem Holds.exists_open (h : Holds dbname ⟨fs, none⟩ l L) (hroom : LeavesRoom dbname ⟨fs, none⟩)
    (htables : ∀ calls ∈ L.tables, Mountable calls) :
    ∃ db fs' l', (DBImpl.openDB dbname).run (disk offsetLimit) fs = .done (.ok db) fs' ∧
      Holds dbname ⟨fs', some db⟩ l' L := by
  have hrep : Representable ⟨fs, none⟩ .openDB := trivial
  obtain ⟨s, db', fs', hrun, l', hdir', hends⟩ :=
    call_done h.sound.rests hroom (rfl : Call.program dbname .openDB none = some _)
      (h.not_faults_openDB htables) trivial
  obtain ⟨L', hturns, hholds⟩ := ends_holds h hroom hrep hdir' hends
  cases hturns with
  | @opened db₁ _ _ =>
      obtain ⟨r, fs₁, hopen, hret⟩ := Prog.run_bind_eq_done _ hrun
      cases r with
      | error s => cases hret
      | ok db =>
          obtain ⟨hs, rfl⟩ := Outcome.done.inj hret
          obtain rfl : db = db₁ := Option.some.inj (Prod.mk.inj hs).2
          exact ⟨db, fs₁, l', hopen, hholds⟩

end

end MiniLevelDB
