namespace Recognition.Payment

structure Country where
  code : List Char
  /-- Characters of an account number, the country code and the check digits among them. -/
  length : Nat
  /-- The check digits that every number of the country has, if they do not vary. -/
  checkDigits : Option (List Char)
deriving DecidableEq, Repr

def countries : List Country :=
  [⟨['A', 'D'], 24, none⟩, ⟨['A', 'E'], 23, none⟩, ⟨['A', 'L'], 28, none⟩, ⟨['A', 'O'], 25, none⟩,
   ⟨['A', 'T'], 20, none⟩, ⟨['A', 'Z'], 28, none⟩, ⟨['B', 'A'], 20, some ['3', '9']⟩,
   ⟨['B', 'E'], 16, none⟩, ⟨['B', 'F'], 28, none⟩, ⟨['B', 'G'], 22, none⟩, ⟨['B', 'H'], 22, none⟩,
   ⟨['B', 'I'], 27, none⟩, ⟨['B', 'J'], 28, none⟩, ⟨['B', 'R'], 29, none⟩, ⟨['B', 'Y'], 28, none⟩,
   ⟨['C', 'F'], 27, none⟩, ⟨['C', 'G'], 27, none⟩, ⟨['C', 'H'], 21, none⟩, ⟨['C', 'I'], 28, none⟩,
   ⟨['C', 'M'], 27, none⟩, ⟨['C', 'R'], 22, none⟩, ⟨['C', 'V'], 25, none⟩, ⟨['C', 'Y'], 28, none⟩,
   ⟨['C', 'Z'], 24, none⟩, ⟨['D', 'E'], 22, none⟩, ⟨['D', 'J'], 27, none⟩, ⟨['D', 'K'], 18, none⟩,
   ⟨['D', 'O'], 28, none⟩, ⟨['D', 'Z'], 26, none⟩, ⟨['E', 'E'], 20, none⟩, ⟨['E', 'G'], 29, none⟩,
   ⟨['E', 'S'], 24, none⟩, ⟨['F', 'I'], 18, none⟩, ⟨['F', 'O'], 18, none⟩, ⟨['F', 'R'], 27, none⟩,
   ⟨['G', 'A'], 27, none⟩, ⟨['G', 'B'], 22, none⟩, ⟨['G', 'E'], 22, none⟩, ⟨['G', 'I'], 23, none⟩,
   ⟨['G', 'L'], 18, none⟩, ⟨['G', 'Q'], 27, none⟩, ⟨['G', 'R'], 27, none⟩, ⟨['G', 'T'], 28, none⟩,
   ⟨['G', 'W'], 25, none⟩, ⟨['H', 'N'], 28, none⟩, ⟨['H', 'R'], 21, none⟩, ⟨['H', 'U'], 28, none⟩,
   ⟨['I', 'E'], 22, none⟩, ⟨['I', 'L'], 23, none⟩, ⟨['I', 'Q'], 23, none⟩, ⟨['I', 'R'], 26, none⟩,
   ⟨['I', 'S'], 26, none⟩, ⟨['I', 'T'], 27, none⟩, ⟨['J', 'O'], 30, none⟩, ⟨['K', 'M'], 27, none⟩,
   ⟨['K', 'W'], 30, none⟩, ⟨['K', 'Z'], 20, none⟩, ⟨['L', 'B'], 28, none⟩, ⟨['L', 'C'], 32, none⟩,
   ⟨['L', 'I'], 21, none⟩, ⟨['L', 'T'], 20, none⟩, ⟨['L', 'U'], 20, none⟩, ⟨['L', 'V'], 21, none⟩,
   ⟨['L', 'Y'], 25, none⟩, ⟨['M', 'A'], 28, none⟩, ⟨['M', 'C'], 27, none⟩, ⟨['M', 'D'], 24, none⟩,
   ⟨['M', 'E'], 22, some ['2', '5']⟩, ⟨['M', 'G'], 27, none⟩, ⟨['M', 'K'], 19, some ['0', '7']⟩,
   ⟨['M', 'L'], 28, none⟩, ⟨['M', 'R'], 27, some ['1', '3']⟩, ⟨['M', 'T'], 31, none⟩,
   ⟨['M', 'U'], 30, none⟩, ⟨['M', 'Z'], 25, none⟩, ⟨['N', 'E'], 28, none⟩, ⟨['N', 'I'], 32, none⟩,
   ⟨['N', 'L'], 18, none⟩, ⟨['N', 'O'], 15, none⟩, ⟨['P', 'K'], 24, none⟩, ⟨['P', 'L'], 28, none⟩,
   ⟨['P', 'S'], 29, none⟩, ⟨['P', 'T'], 25, some ['5', '0']⟩, ⟨['Q', 'A'], 29, none⟩,
   ⟨['R', 'O'], 24, none⟩, ⟨['R', 'S'], 22, some ['3', '5']⟩, ⟨['R', 'U'], 33, none⟩,
   ⟨['S', 'A'], 24, none⟩, ⟨['S', 'C'], 31, none⟩, ⟨['S', 'D'], 18, none⟩, ⟨['S', 'E'], 24, none⟩,
   ⟨['S', 'I'], 19, some ['5', '6']⟩, ⟨['S', 'K'], 24, none⟩, ⟨['S', 'M'], 27, none⟩,
   ⟨['S', 'N'], 28, none⟩, ⟨['S', 'T'], 25, none⟩, ⟨['S', 'V'], 28, none⟩, ⟨['T', 'D'], 27, none⟩,
   ⟨['T', 'G'], 28, none⟩, ⟨['T', 'L'], 23, some ['3', '8']⟩, ⟨['T', 'N'], 24, some ['5', '9']⟩,
   ⟨['T', 'R'], 26, none⟩, ⟨['U', 'A'], 29, none⟩, ⟨['V', 'A'], 22, none⟩, ⟨['V', 'G'], 24, none⟩,
   ⟨['X', 'K'], 20, none⟩]

def countryOf? (code : List Char) : Option Country := countries.find? (·.code = code)

end Recognition.Payment
