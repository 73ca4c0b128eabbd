import TomitaParser.Text.CreatePrimitives
/-! # Groups of primitives

`createPrimGroups` puts the primitives of a plain text together to groups. Each query looks at some
primitives behind a group and adds those that it takes. The number of a primitive that is not there
is an error. -/

namespace TomitaParser.Text

/-- `ETypeOfAbbrev`. -/
inductive TypeOfAbbrev
  | standard
  | newerEOS
  | digitEOS
deriving DecidableEq, Repr

/-- What the queries ask about characters, words and the language. -/
structure TokenData where
  charType : ℕ → CharClass
  ignoreUpperCase : Bool
  isTurkish : Bool
  toLower : List ℕ → List ℕ
  hasAbbrev : List ℕ → Option TypeOfAbbrev
  hasWordWithPoint : List ℕ → Bool
  isSingleQuotation : ℕ → Bool
  isQuotation : ℕ → Bool
  isChangedToRus : List ℕ → Bool
  isChangedToEng : List ℕ → Bool

/-- Whether the letter of a class in the table is an upper case letter. -/
def CharClass.isUpperLetter : CharClass → Bool
  | .unknown => false
  | .lower => false
  | .altLower => false
  | _ => true

/-- Whether the letter of a class in the table is a lower case letter. -/
def CharClass.isLowerLetter (c : CharClass) : Bool := !c.isUpperLetter

def PrimGroup.isWA (group : PrimGroup) : Bool := group.gtyp = .word || group.gtyp = .altWord

def Primitive.isWA (p : Primitive) : Bool := p.typ = .word || p.typ = .altWord

namespace TextBase
variable (d : TokenData) (t : TextBase)

/-- The number of primitives. -/
def num : ℕ := t.primitives.length

/-- `m_vecPrimitive[i]`: nothing if it is out of range. -/
def at? (i : ℕ) : Option Primitive := t.primitives[i]?

/-- Whether the primitives are as asked for, up to the first one that is not. -/
def holds : List (ℕ × (Primitive → Bool)) → Option Bool
  | [] => some true
  | (i, p) :: rest => (t.at? i).bind fun x => if p x then holds rest else some false

/-- The primitives are only looked at under a condition. -/
def guarded (condition : Bool) (asked : List (ℕ × (Primitive → Bool))) : Option Bool :=
  if condition then t.holds asked else some false

def isPunctChar (ch : Char) (p : Primitive) : Bool :=
  p.typ = .punct && t.charAt p.pos = ch.toNat

def isPunctSentEnd (p : Primitive) : Bool :=
  t.isPunctChar '.' p || t.isPunctChar '?' p || t.isPunctChar '!' p

/-- A point, a comma, a colon, a semicolon or a quote. -/
def isPunctBehindBracket (p : Primitive) : Bool :=
  t.isPunctSentEnd p || t.isPunctChar ',' p || t.isPunctChar ':' p || t.isPunctChar ';' p ||
    t.isPunctChar '"' p

def isPunctBorder (p : Primitive) : Bool :=
  t.isPunctBehindBracket p || t.isPunctChar '(' p || t.isPunctChar ')' p || t.isPunctChar '/' p

def isGroupBorder (no : ℕ) : Option Bool :=
  if t.num ≤ no then some true
  else
    (t.at? no).bind fun cur =>
      if cur.isNZ then some true
      else if t.isPunctBorder cur then
        if t.num ≤ no + 1 then some true
        else
          (t.at? (no + 1)).bind fun next =>
            if next.isNZ then some true
            else if d.charType (t.charAt next.pos) = .upper ∨
                d.charType (t.charAt next.pos) = .altUpper then some true
            else some (t.isPunctChar ')' cur && t.isPunctBehindBracket next)
      else some false

/-- `BuildPrimGroupText` without escape sequences: a long text is cut off. -/
def groupText (group : PrimGroup) : List ℕ :=
  let str := group.prim.flatMap fun p => ((t.text.drop p.pos).take p.len).filter (· ≠ 0x01)
  if maxWordLen ≤ str.length then str.take (maxWordLen - 2) else str

/-- A group that takes the primitives from one number up to another, and how many these are. -/
def take (group : PrimGroup) (gtyp : TypeOfPrim) (noBegPrim noEndPrim count : ℕ) :
    Option (PrimGroup × ℕ) :=
  some ({ t.appendPrimitives group noBegPrim noEndPrim with gtyp }, count)

def is3DigitChainDelimeter (start : ℕ) : Option Bool :=
  t.guarded (start < t.num) [(start, fun p => (p.isNZ && p.len = 1) || t.isPunctChar '.' p)]

/-- The loop of `query3DigitChain`, with so many primitives left. -/
def chainLoop : ℕ → ℕ → Bool → Option ℕ
  | 0, start, bPrevIsSpace => some (if bPrevIsSpace then start - 1 else start)
  | left + 1, start, true =>
    (t.at? start).bind fun p =>
      if p.typ = .digit ∧ p.len = 3 then chainLoop left (start + 1) false else some (start - 1)
  | left + 1, start, false =>
    (t.is3DigitChainDelimeter start).bind fun b =>
      if b then chainLoop left (start + 1) true else some start

def query3DigitChain (start : ℕ) : Option ℕ :=
  if t.num ≤ start then some start
  else
    (t.is3DigitChainDelimeter start).bind fun b =>
      if b then t.chainLoop (t.num - (start + 1)) (start + 1) true else some start

def queryLongComplexDigit (group : PrimGroup) (start : ℕ) : Option (PrimGroup × ℕ) :=
  (t.at? start).bind fun p =>
    if p.typ ≠ .digit then some (group, 0)
    else
      (t.query3DigitChain (start + 1)).bind fun kk =>
        if kk > start + 1 then
          (t.isGroupBorder d kk).bind fun b =>
            if !b then some (group, 0)
            else t.take group .complexDigit (start + 1) kk (kk - start)
        else some (group, 0)

def queryTurkishOrdinalNumberGroup (group : PrimGroup) (start : ℕ) : Option (PrimGroup × ℕ) :=
  if !d.isTurkish then some (group, 0)
  else
    (t.guarded true [(start, fun p => p.typ = .digit)]).bind fun digit =>
    (t.guarded (digit && start + 1 < t.num) [(start + 1, t.isPunctChar '.')]).bind fun dot =>
    (t.guarded (dot && start + 2 < t.num) [(start + 2, Primitive.isNZ)]).bind fun space =>
    (t.guarded (space && start + 3 < t.num) [(start + 3, Primitive.isWA)]).bind fun word =>
    (t.guarded (word && 0 < start) [(start - 1, fun p => !p.isNZ)]).bind fun joined =>
    (t.guarded (word && !joined && 1 < start) [(start - 2, fun p => p.typ = .digit)]).bind
      fun number =>
      if !word || joined || number then some (group, 0)
      else t.take group .complex (start + 1) (start + 2) 2

/-- `SPrimScheme`: the types with the characters, a zero for any, and the type of the group. -/
structure PrimScheme where
  prims : List (TypeOfPrim × ℕ)
  resType : TypeOfPrim
deriving DecidableEq, Repr

def digitScheme : TypeOfPrim × ℕ := (.digit, 0)
def punctScheme (ch : Char) : TypeOfPrim × ℕ := (.punct, ch.toNat)
def symbolScheme (ch : Char) : TypeOfPrim × ℕ := (.symbol, ch.toNat)

/-- A number, and one with a decimal part. -/
def decimalScheme (ch : Char) : List (TypeOfPrim × ℕ) := [digitScheme, punctScheme ch, digitScheme]

/-- `g_ComplexNumberSchemes`. There is one less than the table has room for: the last is empty. -/
def complexNumberSchemes : List PrimScheme :=
  let digit := [digitScheme]
  let dollar := [symbolScheme '$']
  let percent := [symbolScheme '%']
  let hyphen := [punctScheme '-']
  let comma := decimalScheme ','
  let point := decimalScheme '.'
  [⟨digit ++ percent, .complexDigit⟩,
    ⟨comma ++ percent, .complexDigit⟩,
    ⟨point ++ percent, .complexDigit⟩,
    ⟨comma, .complexDigit⟩,
    ⟨point, .complexDigit⟩,
    ⟨dollar ++ comma, .complexDigit⟩,
    ⟨dollar ++ point, .complexDigit⟩,
    ⟨comma ++ hyphen ++ comma, .complexDigitHyp⟩,
    ⟨point ++ hyphen ++ point, .complexDigitHyp⟩,
    ⟨digit ++ hyphen ++ comma, .complexDigitHyp⟩,
    ⟨digit ++ hyphen ++ point, .complexDigitHyp⟩,
    ⟨comma ++ hyphen ++ digit, .complexDigitHyp⟩,
    ⟨point ++ hyphen ++ digit, .complexDigitHyp⟩,
    ⟨dollar ++ comma ++ hyphen ++ dollar ++ comma, .complexDigitHyp⟩,
    ⟨dollar ++ point ++ hyphen ++ dollar ++ point, .complexDigitHyp⟩,
    ⟨dollar ++ digit ++ hyphen ++ dollar ++ comma, .complexDigitHyp⟩,
    ⟨dollar ++ digit ++ hyphen ++ dollar ++ point, .complexDigitHyp⟩,
    ⟨dollar ++ comma ++ hyphen ++ dollar ++ digit, .complexDigitHyp⟩,
    ⟨dollar ++ point ++ hyphen ++ dollar ++ digit, .complexDigitHyp⟩,
    ⟨dollar ++ comma ++ hyphen ++ comma, .complexDigitHyp⟩,
    ⟨dollar ++ point ++ hyphen ++ point, .complexDigitHyp⟩,
    ⟨dollar ++ digit ++ hyphen ++ comma, .complexDigitHyp⟩,
    ⟨dollar ++ digit ++ hyphen ++ point, .complexDigitHyp⟩,
    ⟨dollar ++ comma ++ hyphen ++ digit, .complexDigitHyp⟩,
    ⟨dollar ++ point ++ hyphen ++ digit, .complexDigitHyp⟩,
    ⟨digit ++ hyphen ++ digit, .digHyp⟩,
    ⟨dollar ++ digit ++ hyphen ++ dollar ++ digit, .complexDigitHyp⟩,
    ⟨digit ++ hyphen ++ digit ++ percent, .complexDigitHyp⟩,
    ⟨dollar ++ digit ++ hyphen ++ digit, .complexDigitHyp⟩,
    ⟨[symbolScheme '#'] ++ digit, .complexDigit⟩,
    ⟨[(.word, 'N'.toNat)] ++ digit, .complexDigit⟩,
    ⟨[(.altWord, 'N'.toNat)] ++ digit, .complexDigit⟩,
    ⟨digit ++ percent ++ hyphen ++ [(.word, 0)], .hyphen⟩,
    ⟨digit ++ hyphen ++ [(.word, 0)], .hyphen⟩,
    ⟨[], .unknownPrim⟩]

/-- The loop of `CompareToScheme`: the types and characters are compared while there are
primitives. -/
def matchScheme : ℕ → List (TypeOfPrim × ℕ) → Option Bool
  | _, [] => some true
  | i, (typ, ch) :: rest =>
    if t.num ≤ i then some false
    else
      (t.at? i).bind fun p =>
        if p.typ ≠ typ ∨ ch ≠ 0 ∧ t.charAt p.pos ≠ ch then some false
        else matchScheme (i + 1) rest

def compareToScheme (scheme : PrimScheme) (start : ℕ) : Option Bool :=
  (t.matchScheme start scheme.prims).bind fun b =>
    if b then t.isGroupBorder d (start + scheme.prims.length) else some false

def firstScheme (start : ℕ) : List PrimScheme → Option (Option PrimScheme)
  | [] => some none
  | scheme :: rest =>
    (t.compareToScheme d scheme start).bind fun b =>
      if b then some (some scheme) else firstScheme start rest

def queryComplexDigit (group : PrimGroup) (start : ℕ) : Option (PrimGroup × ℕ) :=
  (t.guarded (0 < start) [(start - 1, fun p => !(p.isNZ || (p.typ = .punct &&
    !t.isPunctChar '-' p && !t.isPunctChar '.' p && !t.isPunctChar ',' p)))]).bind fun joined =>
    if joined then some (group, 0)
    else
      (t.guarded true [(start, fun p => p.typ = .symbol || p.typ = .digit)]).bind fun number =>
      (t.guarded (!number && start < t.num - 1) [(start, fun p => p.isWA && p.len = 1),
        (start + 1, fun p => p.typ = .digit)]).bind fun letter =>
        if !number && !letter then some (group, 0)
        else
          (t.firstScheme d start complexNumberSchemes).bind fun scheme =>
            match scheme with
            | none => some (group, 0)
            | some scheme =>
              t.take group scheme.resType (start + 1) (start + scheme.prims.length)
                scheme.prims.length

def queryBucksGoup (group : PrimGroup) (start : ℕ) : Option (PrimGroup × ℕ) :=
  (t.guarded (0 < start) [(start - 1, fun p => !p.isNZ && p.typ ≠ .punct)]).bind fun joined =>
    if joined || t.num - 1 ≤ start then some (group, 0)
    else
      (t.guarded true [(start, fun p => p.typ = .symbol && t.getText p = ['$'.toNat]),
        (start + 1, fun p => p.typ = .digit)]).bind fun dollar =>
      (t.guarded (dollar && start + 2 < t.num) [(start + 2, fun p => !p.isNZ &&
        !(t.isPunctSentEnd p || t.isPunctChar ',' p))]).bind fun goesOn =>
        if !dollar || goesOn then some (group, 0)
        else
          (t.query3DigitChain (start + 2)).bind fun kk =>
          (t.isGroupBorder d kk).bind fun b =>
            if !b then some (group, 0)
            else t.take group .complexDigit (start + 1) kk (kk - start)

/-- The loop of `querySlashDigitGroup`, with so many primitives left. -/
def slashLoop : ℕ → ℕ → Option ℕ
  | 0, stop => some stop
  | left + 1, stop =>
    (t.guarded (stop < t.num) [(stop, t.isPunctChar '/')]).bind fun slash =>
      if !slash then some stop
      else
        (t.guarded (stop + 1 < t.num) [(stop + 1, fun p => p.typ = .digit)]).bind fun digit =>
          slashLoop left (if digit then stop + 2 else stop + 1)

def querySlashDigitGroup (group : PrimGroup) (start : ℕ) : Option (PrimGroup × ℕ) :=
  (t.guarded (0 < start) [(start - 1, fun p => !p.isNZ && p.typ ≠ .punct)]).bind fun joined =>
    if joined then some (group, 0)
    else
      (t.guarded true [(start, fun p => p.typ = .digit)]).bind fun digit =>
        if !digit then some (group, 0)
        else
          (t.slashLoop (t.num - start) (start + 1)).bind fun stop =>
            if stop - start > 1 then
              (t.isGroupBorder d stop).bind fun b =>
                if b then t.take group .complexDigit (start + 1) stop (stop - start)
                else some (group, 0)
            else some (group, 0)

def toCodes (s : String) : List ℕ := s.toList.map Char.toNat

/-- `TDoubleCharInitials`. -/
def doubleCharInitials : List (List ℕ) :=
  ["Ал", "Ан", "Вл", "Вч", "Вс", "Дм", "Ев", "Ел", "Ст", "Дж"].map toCodes

def queryInitialGroup (group : PrimGroup) (start : ℕ) : Option (PrimGroup × ℕ) :=
  (t.guarded (start < t.num && group.isWA) [(start, t.isPunctChar '.')]).bind fun dot =>
    if !dot then some (group, 0)
    else
      let text := t.groupText group
      let first := d.charType (text.headD 0)
      let second := d.charType (text.getD 1 0)
      let type := if first = .altUpper then TypeOfPrim.altInitial else .initial
      if group.len = 1 ∧ (first.isUpperLetter || d.ignoreUpperCase) then
        t.take group type start (start + 1) 1
      else if group.len = 2 ∧ first.isUpperLetter ∧ second.isLowerLetter then
        if doubleCharInitials.contains text then
          t.take group (if second = .altUpper then .altInitial else type) start (start + 1) 1
        else some (group, 0)
      else some (group, 0)

/-- `RecognizeAbbrev`: the type of the group. -/
def recognizeAbbrev (text : List ℕ) (altLang : Bool) : Option TypeOfPrim :=
  (d.hasAbbrev (d.toLower text)).map fun
    | .standard => if altLang then .abbEosAlt else .abbEos
    | .newerEOS => if altLang then .abbAlt else .abbreviature
    | .digitEOS => if altLang then .abbDigAlt else .abbDig

/-- How many more primitives an abbreviation of two words has, and whether it has a hyphen. -/
def abbrevTail (start : ℕ) : Option (ℕ × Bool) :=
  (t.guarded (start + 2 < t.num) [(start + 1, fun p => p.typ = .word),
    (start + 2, t.isPunctChar '.')]).bind fun joined =>
  (t.guarded (!joined && start + 3 < t.num) [(start + 1, fun p => p.typ = .space && p.len < 2),
    (start + 2, fun p => p.typ = .word), (start + 3, t.isPunctChar '.')]).bind fun spaced =>
  (t.guarded (!joined && !spaced && start + 3 < t.num) [(start + 1, t.isPunctChar '-'),
    (start + 2, fun p => p.typ = .word), (start + 3, t.isPunctChar '.')]).bind fun hyphen =>
    some (if joined then (2, false) else if spaced then (3, false)
      else if hyphen then (3, true) else (0, false))

def queryAbbrevGroup (group : PrimGroup) (start : ℕ) : Option (PrimGroup × ℕ) :=
  (t.guarded (start < t.num && group.isWA)
    [(start, fun p => t.isPunctChar '.' p || t.isPunctChar '-' p)]).bind fun punct =>
    if !punct then some (group, 0)
    else
      (t.at? start).bind fun p =>
        let tmp := t.groupText group ++ [t.charAt p.pos]
        if group.gtyp = .word then
          (t.abbrevTail start).bind fun (no, hyphen) =>
          (if 0 < no then (t.at? (start + no - 1)).map fun last =>
              recognizeAbbrev d (tmp ++ (if hyphen then ['-'.toNat] else []) ++ t.getText last ++
                ['.'.toNat]) false
            else some none).bind fun long =>
            match long with
            | some type => t.take group type start (start + 1 + no) (no + 1)
            | none =>
              match recognizeAbbrev d tmp false with
              | some type => t.take group type start (start + 1) 1
              | none => some (group, 0)
        else
          match recognizeAbbrev d tmp true with
          | some type => t.take group type start (start + 1) 1
          | none => some (group, 0)

/-- `CanIncludePointBetweenWords`, for the number of the point. -/
def canIncludePoint (no : ℕ) : Option Bool :=
  if no = 0 then none
  else
    let start := no - 1
    if t.num ≤ start + 3 then some true
    else
      (t.guarded true [(start, fun p => p.typ = .word),
        (start + 1, fun p => t.charAt p.pos = '.'.toNat), (start + 2, fun p => p.typ = .word &&
          (d.charType (t.charAt p.pos) = .upper || d.charType (t.charAt p.pos) = .lower)),
        (start + 3, fun p => p.isNZ || t.charAt p.pos = ','.toNat || t.charAt p.pos = ':'.toNat)]
        ).bind fun asked =>
        if !asked then some true
        else
          (t.at? start).bind fun first =>
          (t.at? (start + 2)).bind fun last =>
            let strFirstPart := d.toLower (t.getText first)
            let strLastPart := d.toLower (t.getText last)
            let point := ['.'.toNat]
            some (strFirstPart.length ≤ 2 || d.hasWordWithPoint (strFirstPart ++ point) ||
              d.hasWordWithPoint (point ++ strLastPart) ||
              d.hasWordWithPoint (strFirstPart ++ point ++ strLastPart))

/-- `bChkJoin`, and `bComplex` behind a sign between two words. -/
def joins (no : ℕ) (cur : Primitive) (bComplex : Bool) : Option (Bool × Bool) :=
  if t.isPunctChar '.' cur then (t.canIncludePoint d no).map fun b => (true, b)
  else if t.isPunctChar ':' cur then some (true, true)
  else if t.isPunctChar '-' cur then some (true, bComplex)
  else if cur.typ = .symbol ∧ cur.len = 1 ∧ t.charAt cur.pos ≠ '|'.toNat ∧
      t.charAt cur.pos ≠ '&'.toNat then some (true, true)
  else some (false, bComplex)

/-- The loop of `queryComplexGroup`, with so many primitives left: where it ends, and `bComplex`.
The check against words of both alphabets looks at the sign between them, so it never holds. -/
def wordsLoop : ℕ → ℕ → TypeOfPrim → Bool → Option (ℕ × Bool)
  | 0, no, _, bComplex => some (no, bComplex)
  | left + 1, no, typLst, bComplex =>
    (t.at? no).bind fun cur =>
      if cur.typ.isDWA then
        wordsLoop left (no + 1) cur.typ
          (bComplex || (typLst ≠ .punct && typLst ≠ .symbol && cur.typ ≠ typLst))
      else
        (t.guarded (no + 1 < t.num) [(no + 1, Primitive.isDWA)]).bind fun next =>
          if !next then some (no, bComplex)
          else
            (t.joins d no cur bComplex).bind fun (bChkJoin, bComplex) =>
              if !bChkJoin then some (no, bComplex)
              else wordsLoop left (no + 1) cur.typ bComplex

/-- `ReplaceSimilarLetters`: only the type and the text of the group can change. -/
def replaceSimilarLetters (group : PrimGroup) : TypeOfPrim :=
  let isChanged (typ : TypeOfPrim) (changed : List ℕ → Bool) : Bool :=
    group.prim.any fun p => p.typ = typ && changed (t.getText p)
  if group.prim.all Primitive.isWA && group.prim.any (fun p => p.typ = .word) &&
      group.prim.any (fun p => p.typ = .altWord) then
    if isChanged .altWord d.isChangedToRus then .word
    else if isChanged .word d.isChangedToEng then .altWord
    else .complex
  else .complex

/-- `queryComplexGroup`, where a number out of range is an error. -/
def queryComplexGroupAt (group : PrimGroup) (start : ℕ) : Option (PrimGroup × ℕ) :=
  if !group.isDWA then some (group, 0)
  else
    (t.wordsLoop d (t.num - start) start group.gtyp false).bind fun (no, bComplex) =>
      if no = start ∨ !bComplex then some (group, 0)
      else
        t.take group (replaceSimilarLetters d t (t.appendPrimitives group start no)) start no
          (no - start)

/-- The loop of `queryApostropheGroup`, with so many primitives left: nothing behind a sign that no
word follows. -/
def apostropheLoop (typ : TypeOfPrim) : ℕ → ℕ → Option (Option ℕ)
  | 0, no => some (some no)
  | left + 1, no =>
    (t.guarded (no < t.num) [(no, fun p => p.typ = .punct && p.len = 1 &&
      (d.isSingleQuotation (t.charAt p.pos) ||
        (d.isQuotation (t.charAt p.pos) && d.isTurkish)))]).bind fun quote =>
      if !quote then some (some no)
      else
        (t.guarded (no + 1 < t.num) [(no + 1, fun p => p.typ = typ)]).bind fun word =>
          if !word then some none else apostropheLoop typ left (no + 2)

def queryApostropheGroup (group : PrimGroup) (start : ℕ) : Option (PrimGroup × ℕ) :=
  (t.apostropheLoop d group.gtyp (t.num - start) start).bind fun
    | none => some (group, 0)
    | some no =>
      if no = start then some (group, 0)
      else t.take group group.gtyp start no (no - start)

/-- The loop of `queryHyphenGroup`, with so many primitives left: where it ends, and `bDigHyp`. -/
def hyphenLoop : ℕ → ℕ → Bool → Option (ℕ × Bool)
  | 0, no, bDigHyp => some (no, bDigHyp)
  | left + 1, no, bDigHyp =>
    (t.guarded (no + 1 < t.num) [(no, t.isPunctChar '-'), (no + 1, Primitive.isDWA)]).bind
      fun hyphen =>
        if !hyphen then some (no, bDigHyp)
        else
          (t.at? (no + 1)).bind fun next =>
            hyphenLoop left (no + 2) (bDigHyp && next.typ = .digit)

def queryHyphenGroup (group : PrimGroup) (start : ℕ) : Option (PrimGroup × ℕ) :=
  if t.num ≤ start then some (group, 0)
  else
    (t.hyphenLoop (t.num - start) start (group.gtyp = .digit)).bind fun (no, bDigHyp) =>
      if no = start then some (group, 0)
      else t.take group (if bDigHyp then .digHyp else .hyphen) start no (no - start)

/-- A space that might be there is skipped. -/
def skipSpace (no : ℕ) : Option ℕ :=
  (t.guarded (no < t.num) [(no, fun p => p.typ = .space)]).map fun space =>
    if space then no + 1 else no

def queryDivWordGroup (group : PrimGroup) (start : ℕ) : Option (PrimGroup × ℕ) :=
  (t.guarded (start < t.num) [(start, fun p => p.len = 1 && t.isPunctChar '-' p)]).bind
    fun hyphen =>
    if !hyphen then some (group, 0)
    else
      (t.skipSpace (start + 1)).bind fun no =>
      (t.guarded (no < t.num) [(no, fun p => p.typ = .newLine)]).bind fun newLine =>
        if !newLine then some (group, 0)
        else
          (t.skipSpace (no + 1)).bind fun no =>
          (t.guarded (no < t.num) [(no, Primitive.isDWA)]).bind fun word =>
            if !word then some (group, 0)
            else
              t.take group (if group.gtyp = .hyphen then .hypDiv else .divWord) start (no + 1)
                (no + 1 - start)

def queryWordShyGroup (group : PrimGroup) (start : ℕ) : Option (PrimGroup × ℕ) :=
  (t.guarded (start + 3 < t.num) [(start, fun p => t.charAt p.pos = '&'.toNat),
    (start + 2, fun p => t.charAt p.pos = ';'.toNat),
    (start + 1, fun p => t.getText p = toCodes "shy")]).bind fun shy =>
    if !shy then some (group, 0)
    else t.take group .wordShy start (start + 4) 4

/-- The queries that begin at the first primitive of a group, up to the first one that takes
primitives. -/
def queryNumbers (group : PrimGroup) (i : ℕ) : Option (PrimGroup × ℕ) :=
  let queries := [queryLongComplexDigit d t, queryTurkishOrdinalNumberGroup d t,
    queryComplexDigit d t, queryBucksGoup d t, querySlashDigitGroup d t]
  queries.foldlM (fun (r : PrimGroup × ℕ) query => if 0 < r.2 then some r else query r.1 i)
    (group, 0)

/-- Queries that go on with the group, each behind the one before. -/
def queryOnwards (queries : List (PrimGroup → ℕ → Option (PrimGroup × ℕ))) (group : PrimGroup)
    (i : ℕ) : Option (PrimGroup × ℕ) :=
  queries.foldlM (fun r query => (query r.1 r.2).map fun (group, no) => (group, r.2 + no))
    (group, i)

/-- The queries for words behind the first primitive of a group: the group and the number of the
primitive behind it. -/
def queryWords (group : PrimGroup) (i : ℕ) : Option (PrimGroup × ℕ) :=
  (queryOnwards [queryInitialGroup d t, queryAbbrevGroup d t] group i).bind fun (group, i) =>
  (queryComplexGroupAt d t group i).bind fun (group, no) =>
    if 0 < no then some (group, i + no)
    else
      (queryApostropheGroup d t group i).bind fun (group, no) =>
        if 0 < no then some (group, i + no)
        else queryOnwards [queryHyphenGroup t, queryDivWordGroup t, queryWordShyGroup t] group i

/-- The group that begins at a primitive, and the number of the primitive behind it. -/
def nextGroup (i : ℕ) : Option (PrimGroup × ℕ) :=
  (t.at? i).bind fun p =>
    let group := p.toGroup
    if i + 1 = t.num then some (group, t.num)
    else
      (queryNumbers d t group i).bind fun (group, no) =>
        if 0 < no then some (group, i + no)
        else
          (t.guarded true [(i, Primitive.isDWA), (i + 1, fun p => !p.isNZ)]).bind fun word =>
            if !word then some (group, i + 1) else queryWords d t group (i + 1)

/-- The loop of `createPrimGroups` from a primitive on, if so many rounds are enough. -/
def groupsFrom : ℕ → ℕ → Option (List PrimGroup)
  | 0, i => if t.num ≤ i then some [] else none
  | fuel + 1, i =>
    if t.num ≤ i then some []
    else
      (t.nextGroup d i).bind fun (group, next) =>
        (groupsFrom fuel next).map fun groups => group :: groups

/-- `createPrimGroups`. -/
def createPrimGroups : Option (List PrimGroup) := t.groupsFrom d t.num 0

end TextBase
end TomitaParser.Text
