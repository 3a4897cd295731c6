import Mathlib
import ContainerProbe.Proofs.Identification

/-!
# Entry order

Whether a signature holds of a listing does not depend on the order of the listing: each
declared file looks at the entries its path accepts only through emptiness, `any` and `all`.
Over a readable container identification matches exactly the signatures that hold, so
reordering the entries of a readable container changes neither the matched ids nor the format
identifiers.

Once a read fails, order matters. The candidates see the entries one at a time, and a file
that has already found what it needs stops asking for more: whether a failing reader is read
far enough to fail then depends on which entries came before it.

## Main statements

* `Signature.holds_perm`: a signature holds of a listing iff it holds of any reordering.
* `identify_readable_perm`: reordering a readable container's entries changes neither the
  matched ids nor the format identifiers.
* `identify_depends_on_entry_order`: with a reader that fails midway, two orders of the same
  two entries give different matched ids.
-/

namespace ContainerProbe

/-! ## §1 Holding does not see order -/

section Perm

variable {lib : Library} {limit : Option Nat} {v v' : List (String × ByteArray)}

theorem DeclaredFile.holds_perm (h : v.Perm v') (b : ResolvedPath) (f : DeclaredFile) :
    f.holds lib limit b v = f.holds lib limit b v' := by
  -- a file sees the entries its path accepts, and those are reordered alike
  have hm := h.filter fun e => b.accepts e.1
  simp only [DeclaredFile.holds, hm.isEmpty_eq, hm.any_eq, hm.all_eq]

theorem Signature.holds_perm (h : v.Perm v') (cname : Option String) (s : Signature) :
    s.holds lib limit cname v = s.holds lib limit cname v' := by
  simp only [Signature.holds, DeclaredFile.holds_perm h]

end Perm

theorem Container.listing_perm {c : Container} {es : List Entry} (h : es.Perm c.entries) :
    ({ c with entries := es } : Container).listing.Perm c.listing :=
  h.map _

theorem Container.Readable.perm {c : Container} (hr : c.Readable) {es : List Entry}
    (h : es.Perm c.entries) : ({ c with entries := es } : Container).Readable :=
  fun e he => hr e (h.subset he)

/-! ## §2 Readable containers -/

/-- Over a built catalog with no deadline passed, reordering the entries of a readable
container changes neither the matched ids nor the format identifiers. -/
theorem identify_readable_perm (cat : Catalog) (hcat : cat.Built) (config : ScanSettings)
    (hw : windowOf config.scanLimit ≤ Size.max) (hexp : config.expired = false) (c : Container)
    (hread : c.Readable) (es : List Entry) (hperm : es.Perm c.entries) :
    ∃ r r', identify (Library.ofCatalog cat) config c = .ok r ∧
      identify (Library.ofCatalog cat) config { c with entries := es } = .ok r' ∧
      r'.matched = r.matched ∧ r'.puids = r.puids := by
  obtain ⟨r, hid, hm, hp⟩ := identify_readable_matched cat hcat config hw hexp hread
  obtain ⟨r', hid', hm', hp'⟩ :=
    identify_readable_matched cat hcat config hw hexp (hread.perm hperm)
  -- both match the signatures that hold of their listings, which are reorderings
  have hsame : r'.matched = r.matched := by
    rw [hm, hm']
    congr 1
    exact List.filter_congr fun s _ =>
      Signature.holds_perm (Container.listing_perm hperm) c.name s
  exact ⟨r, r', hid, hid', hsame, by rw [hp, hp', hsame]⟩

/-- Two orders of a readable text document, over the catalog built from a document with one
signature that reads its `mimetype` entry and requires its `content.xml`. -/
theorem identify_readable_perm_swap :
    let doc : Definitions :=
      { signatures := [{ id := 1, container := .zip,
                         files := [{ path := "mimetype",
                                     binary := [[{ sequence := "'opendocument'" }]] },
                                   { path := "content.xml" }] }],
        formats := [{ signatureId := 1, puid := "fmt/291" }] }
    let cat : Catalog :=
      { patterns := [⟨"'opendocument'", .floating, [.literal "opendocument".toUTF8.data.toList]⟩],
        signatures := [{ id := 1, container := .zip, description := none,
                         files := [{ path := .exact "mimetype", presence := .required,
                                     binary := [[0]] },
                                   { path := .exact "content.xml", presence := .required,
                                     binary := [] }] }],
        formats := [(1, ["fmt/291"])] }
    let first : Entry :=
      ⟨"mimetype", .ok (.ofBytes "application/vnd.oasis.opendocument.text".toUTF8)⟩
    let second : Entry := ⟨"content.xml", .ok (.ofBytes "<office:document-content/>".toUTF8)⟩
    let archive : Container := { kind := .zip, entries := [first, second] }
    ({} : Catalog).add doc = .ok cat ∧ cat.Built ∧
      windowOf ({} : ScanSettings).scanLimit ≤ Size.max ∧ ({} : ScanSettings).expired = false ∧
      archive.Readable ∧ [second, first].Perm archive.entries ∧
      ∃ r r', identify (Library.ofCatalog cat) {} archive = .ok r ∧
        identify (Library.ofCatalog cat) {} { archive with entries := [second, first] } = .ok r' ∧
        r'.matched = r.matched ∧ r'.puids = r.puids := by
  intro doc cat first second archive
  have hadd : ({} : Catalog).add doc = .ok cat := by decide +kernel
  have hcat : cat.Built := .add doc (.empty {}) hadd
  have hread : archive.Readable := by
    intro e he
    simp only [archive, List.mem_cons, List.not_mem_nil, or_false] at he
    rcases he with rfl | rfl <;> exact ⟨_, rfl, rfl⟩
  have hperm : [second, first].Perm archive.entries := .swap _ _ _
  exact ⟨hadd, hcat, Nat.le_refl _, rfl, hread, hperm,
    identify_readable_perm cat hcat {} (Nat.le_refl _) rfl archive hread _ hperm⟩

/-! ## §3 A failed read makes order matter -/

/-- A compound document whose entry `a` fails after its first byte, and a signature that needs
some entry under `a*` to contain `X` and the entry `a` to begin with a zero byte. With `ab`
first, the glob is satisfied before `a` is opened, only the first byte of `a` is read, and the
signature matches; with `a` first, the search for `X` reads `a` to its failure, which rejects
the signature through the exact path. -/
theorem identify_depends_on_entry_order :
    let lib : Library :=
      { signatures := [{ id := 1, container := .ole2, description := none, files :=
          [{ path := .glob "a*" "^a[^/]*$", presence := .required,
             binary := [[0]] },
           { path := .exact "a", presence := .required, binary := [[1]] }] }]
        patterns := [⟨"'X'", .floating, [.literal [0x58]]⟩, ⟨"^ 00", .atStart, [.literal [0]]⟩]
        formats := []
        prefilter := none }
    let a : Entry := ⟨"a", .ok (Feed.failingAt ⟨#[0, 1]⟩ (some 1) ⟨"injected"⟩)⟩
    let ab : Entry := ⟨"ab", .ok (.ofBytes ⟨#[0x58]⟩)⟩
    [a, ab].Perm [ab, a] ∧
      (identify lib {} { kind := .ole2, entries := [a, ab] }).map (·.matched) = .ok [] ∧
      (identify lib {} { kind := .ole2, entries := [ab, a] }).map (·.matched) = .ok [1] := by
  intro lib a ab
  exact ⟨.swap _ _ _, by decide +kernel, by decide +kernel⟩

end ContainerProbe
