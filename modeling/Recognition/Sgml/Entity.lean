namespace Recognition.Sgml

structure Entity where
  name : List Char
  scalars : List Char
deriving DecidableEq, Repr

/-- Where two names stand for one character, the first is the one to write. -/
def entities : List Entity :=
  [⟨['A', 'a', 'c', 'u', 't', 'e'], ['\u00C1']⟩,
   ⟨['a', 'a', 'c', 'u', 't', 'e'], ['\u00E1']⟩,
   ⟨['A', 'b', 'r', 'e', 'v', 'e'], ['\u0102']⟩,
   ⟨['a', 'b', 'r', 'e', 'v', 'e'], ['\u0103']⟩,
   ⟨['A', 'c', 'i', 'r', 'c'], ['\u00C2']⟩,
   ⟨['a', 'c', 'i', 'r', 'c'], ['\u00E2']⟩,
   ⟨['a', 'c', 'u', 't', 'e'], ['\u00B4']⟩,
   ⟨['A', 'E', 'l', 'i', 'g'], ['\u00C6']⟩,
   ⟨['a', 'e', 'l', 'i', 'g'], ['\u00E6']⟩,
   ⟨['A', 'g', 'r', 'a', 'v', 'e'], ['\u00C0']⟩,
   ⟨['a', 'g', 'r', 'a', 'v', 'e'], ['\u00E0']⟩,
   ⟨['a', 'l', 'e', 'f', 's', 'y', 'm'], ['\u2135']⟩,
   ⟨['A', 'l', 'p', 'h', 'a'], ['\u0391']⟩,
   ⟨['a', 'l', 'p', 'h', 'a'], ['\u03B1']⟩,
   ⟨['A', 'm', 'a', 'c', 'r'], ['\u0100']⟩,
   ⟨['a', 'm', 'a', 'c', 'r'], ['\u0101']⟩,
   ⟨['a', 'm', 'p'], ['&']⟩,
   ⟨['a', 'n', 'd'], ['\u2227']⟩,
   ⟨['a', 'n', 'g'], ['\u2220']⟩,
   ⟨['A', 'o', 'g', 'o', 'n'], ['\u0104']⟩,
   ⟨['a', 'o', 'g', 'o', 'n'], ['\u0105']⟩,
   ⟨['a', 'p', 'o', 's'], ['\'']⟩,
   ⟨['A', 'r', 'i', 'n', 'g'], ['\u00C5']⟩,
   ⟨['a', 'r', 'i', 'n', 'g'], ['\u00E5']⟩,
   ⟨['a', 's', 'y', 'm', 'p'], ['\u2248']⟩,
   ⟨['A', 't', 'i', 'l', 'd', 'e'], ['\u00C3']⟩,
   ⟨['a', 't', 'i', 'l', 'd', 'e'], ['\u00E3']⟩,
   ⟨['A', 'u', 'm', 'l'], ['\u00C4']⟩,
   ⟨['a', 'u', 'm', 'l'], ['\u00E4']⟩,
   ⟨['b', 'd', 'q', 'u', 'o'], ['\u201E']⟩,
   ⟨['B', 'e', 't', 'a'], ['\u0392']⟩,
   ⟨['b', 'e', 't', 'a'], ['\u03B2']⟩,
   ⟨['b', 'r', 'v', 'b', 'a', 'r'], ['\u00A6']⟩,
   ⟨['b', 's', 'o', 'l'], ['\\']⟩,
   ⟨['b', 'u', 'l', 'l'], ['\u2022']⟩,
   ⟨['C', 'a', 'c', 'u', 't', 'e'], ['\u0106']⟩,
   ⟨['c', 'a', 'c', 'u', 't', 'e'], ['\u0107']⟩,
   ⟨['c', 'a', 'p'], ['\u2229']⟩,
   ⟨['C', 'c', 'a', 'r', 'o', 'n'], ['\u010C']⟩,
   ⟨['c', 'c', 'a', 'r', 'o', 'n'], ['\u010D']⟩,
   ⟨['C', 'c', 'e', 'd', 'i', 'l'], ['\u00C7']⟩,
   ⟨['c', 'c', 'e', 'd', 'i', 'l'], ['\u00E7']⟩,
   ⟨['C', 'c', 'i', 'r', 'c'], ['\u0108']⟩,
   ⟨['c', 'c', 'i', 'r', 'c'], ['\u0109']⟩,
   ⟨['C', 'd', 'o', 't'], ['\u010A']⟩,
   ⟨['c', 'd', 'o', 't'], ['\u010B']⟩,
   ⟨['c', 'e', 'd', 'i', 'l'], ['\u00B8']⟩,
   ⟨['c', 'e', 'n', 't'], ['\u00A2']⟩,
   ⟨['C', 'h', 'i'], ['\u03A7']⟩,
   ⟨['c', 'h', 'i'], ['\u03C7']⟩,
   ⟨['c', 'i', 'r', 'c'], ['\u02C6']⟩,
   ⟨['c', 'l', 'u', 'b', 's'], ['\u2663']⟩,
   ⟨['c', 'o', 'm', 'm', 'a', 't'], ['@']⟩,
   ⟨['c', 'o', 'n', 'g'], ['\u2245']⟩,
   ⟨['c', 'o', 'p', 'y'], ['\u00A9']⟩,
   ⟨['c', 'r', 'a', 'r', 'r'], ['\u21B5']⟩,
   ⟨['c', 'u', 'p'], ['\u222A']⟩,
   ⟨['c', 'u', 'r', 'r', 'e', 'n'], ['\u00A4']⟩,
   ⟨['D', 'a', 'g', 'g', 'e', 'r'], ['\u2021']⟩,
   ⟨['d', 'a', 'g', 'g', 'e', 'r'], ['\u2020']⟩,
   ⟨['d', 'A', 'r', 'r'], ['\u21D3']⟩,
   ⟨['d', 'a', 'r', 'r'], ['\u2193']⟩,
   ⟨['D', 'c', 'a', 'r', 'o', 'n'], ['\u010E']⟩,
   ⟨['d', 'c', 'a', 'r', 'o', 'n'], ['\u010F']⟩,
   ⟨['d', 'e', 'g'], ['\u00B0']⟩,
   ⟨['D', 'e', 'l', 't', 'a'], ['\u0394']⟩,
   ⟨['d', 'e', 'l', 't', 'a'], ['\u03B4']⟩,
   ⟨['d', 'i', 'a', 'm', 's'], ['\u2666']⟩,
   ⟨['d', 'i', 'v', 'i', 'd', 'e'], ['\u00F7']⟩,
   ⟨['d', 'o', 'l', 'l', 'a', 'r'], ['$']⟩,
   ⟨['D', 's', 't', 'r', 'o', 'k'], ['\u0110']⟩,
   ⟨['d', 's', 't', 'r', 'o', 'k'], ['\u0111']⟩,
   ⟨['E', 'a', 'c', 'u', 't', 'e'], ['\u00C9']⟩,
   ⟨['e', 'a', 'c', 'u', 't', 'e'], ['\u00E9']⟩,
   ⟨['E', 'c', 'a', 'r', 'o', 'n'], ['\u011A']⟩,
   ⟨['e', 'c', 'a', 'r', 'o', 'n'], ['\u011B']⟩,
   ⟨['E', 'c', 'i', 'r', 'c'], ['\u00CA']⟩,
   ⟨['e', 'c', 'i', 'r', 'c'], ['\u00EA']⟩,
   ⟨['E', 'd', 'o', 't'], ['\u0116']⟩,
   ⟨['e', 'd', 'o', 't'], ['\u0117']⟩,
   ⟨['E', 'g', 'r', 'a', 'v', 'e'], ['\u00C8']⟩,
   ⟨['e', 'g', 'r', 'a', 'v', 'e'], ['\u00E8']⟩,
   ⟨['E', 'm', 'a', 'c', 'r'], ['\u0112']⟩,
   ⟨['e', 'm', 'a', 'c', 'r'], ['\u0113']⟩,
   ⟨['e', 'm', 'p', 't', 'y'], ['\u2205']⟩,
   ⟨['e', 'm', 's', 'p'], ['\u2003']⟩,
   ⟨['E', 'N', 'G'], ['\u014A']⟩,
   ⟨['e', 'n', 'g'], ['\u014B']⟩,
   ⟨['e', 'n', 's', 'p'], ['\u2002']⟩,
   ⟨['E', 'o', 'g', 'o', 'n'], ['\u0118']⟩,
   ⟨['e', 'o', 'g', 'o', 'n'], ['\u0119']⟩,
   ⟨['E', 'p', 's', 'i', 'l', 'o', 'n'], ['\u0395']⟩,
   ⟨['e', 'p', 's', 'i', 'l', 'o', 'n'], ['\u03B5']⟩,
   ⟨['e', 'q', 'u', 'i', 'v'], ['\u2261']⟩,
   ⟨['E', 't', 'a'], ['\u0397']⟩,
   ⟨['e', 't', 'a'], ['\u03B7']⟩,
   ⟨['E', 'T', 'H'], ['\u00D0']⟩,
   ⟨['e', 't', 'h'], ['\u00F0']⟩,
   ⟨['E', 'u', 'm', 'l'], ['\u00CB']⟩,
   ⟨['e', 'u', 'm', 'l'], ['\u00EB']⟩,
   ⟨['e', 'u', 'r', 'o'], ['\u20AC']⟩,
   ⟨['e', 'x', 'i', 's', 't'], ['\u2203']⟩,
   ⟨['f', 'n', 'o', 'f'], ['\u0192']⟩,
   ⟨['f', 'o', 'r', 'a', 'l', 'l'], ['\u2200']⟩,
   ⟨['f', 'r', 'a', 'c', '1', '2'], ['\u00BD']⟩,
   ⟨['f', 'r', 'a', 'c', '1', '4'], ['\u00BC']⟩,
   ⟨['f', 'r', 'a', 'c', '3', '4'], ['\u00BE']⟩,
   ⟨['f', 'r', 'a', 's', 'l'], ['\u2044']⟩,
   ⟨['G', 'a', 'm', 'm', 'a'], ['\u0393']⟩,
   ⟨['g', 'a', 'm', 'm', 'a'], ['\u03B3']⟩,
   ⟨['G', 'b', 'r', 'e', 'v', 'e'], ['\u011E']⟩,
   ⟨['g', 'b', 'r', 'e', 'v', 'e'], ['\u011F']⟩,
   ⟨['G', 'c', 'e', 'd', 'i', 'l'], ['\u0122']⟩,
   ⟨['G', 'c', 'i', 'r', 'c'], ['\u011C']⟩,
   ⟨['g', 'c', 'i', 'r', 'c'], ['\u011D']⟩,
   ⟨['G', 'd', 'o', 't'], ['\u0120']⟩,
   ⟨['g', 'd', 'o', 't'], ['\u0121']⟩,
   ⟨['g', 'e'], ['\u2265']⟩,
   ⟨['g', 't'], ['>']⟩,
   ⟨['h', 'a', 'c', 'u', 't', 'e'], ['h', '\u0301']⟩,
   ⟨['h', 'A', 'r', 'r'], ['\u21D4']⟩,
   ⟨['h', 'a', 'r', 'r'], ['\u2194']⟩,
   ⟨['H', 'c', 'i', 'r', 'c'], ['\u0124']⟩,
   ⟨['h', 'c', 'i', 'r', 'c'], ['\u0125']⟩,
   ⟨['h', 'e', 'a', 'r', 't', 's'], ['\u2665']⟩,
   ⟨['h', 'e', 'l', 'l', 'i', 'p'], ['\u2026']⟩,
   ⟨['H', 's', 't', 'r', 'o', 'k'], ['\u0126']⟩,
   ⟨['h', 's', 't', 'r', 'o', 'k'], ['\u0127']⟩,
   ⟨['I', 'a', 'c', 'u', 't', 'e'], ['\u00CD']⟩,
   ⟨['i', 'a', 'c', 'u', 't', 'e'], ['\u00ED']⟩,
   ⟨['I', 'c', 'i', 'r', 'c'], ['\u00CE']⟩,
   ⟨['i', 'c', 'i', 'r', 'c'], ['\u00EE']⟩,
   ⟨['I', 'd', 'o', 't'], ['\u0130']⟩,
   ⟨['i', 'e', 'x', 'c', 'l'], ['\u00A1']⟩,
   ⟨['I', 'g', 'r', 'a', 'v', 'e'], ['\u00CC']⟩,
   ⟨['i', 'g', 'r', 'a', 'v', 'e'], ['\u00EC']⟩,
   ⟨['I', 'J', 'l', 'i', 'g'], ['\u0132']⟩,
   ⟨['i', 'j', 'l', 'i', 'g'], ['\u0133']⟩,
   ⟨['I', 'm', 'a', 'c', 'r'], ['\u012A']⟩,
   ⟨['i', 'm', 'a', 'c', 'r'], ['\u012B']⟩,
   ⟨['i', 'm', 'a', 'g', 'e'], ['\u2111']⟩,
   ⟨['i', 'm', 'a', 't', 'h'], ['\u0131']⟩,
   ⟨['i', 'n', 'f', 'i', 'n'], ['\u221E']⟩,
   ⟨['i', 'n', 'o', 'd', 'o', 't'], ['\u0131']⟩,
   ⟨['i', 'n', 't'], ['\u222B']⟩,
   ⟨['I', 'o', 'g', 'o', 'n'], ['\u012E']⟩,
   ⟨['i', 'o', 'g', 'o', 'n'], ['\u012F']⟩,
   ⟨['I', 'o', 't', 'a'], ['\u0399']⟩,
   ⟨['i', 'o', 't', 'a'], ['\u03B9']⟩,
   ⟨['i', 'q', 'u', 'e', 's', 't'], ['\u00BF']⟩,
   ⟨['i', 's', 'i', 'n'], ['\u2208']⟩,
   ⟨['I', 't', 'i', 'l', 'd', 'e'], ['\u0128']⟩,
   ⟨['i', 't', 'i', 'l', 'd', 'e'], ['\u0129']⟩,
   ⟨['I', 'u', 'm', 'l'], ['\u00CF']⟩,
   ⟨['i', 'u', 'm', 'l'], ['\u00EF']⟩,
   ⟨['J', 'c', 'i', 'r', 'c'], ['\u0134']⟩,
   ⟨['j', 'c', 'i', 'r', 'c'], ['\u0135']⟩,
   ⟨['K', 'a', 'p', 'p', 'a'], ['\u039A']⟩,
   ⟨['k', 'a', 'p', 'p', 'a'], ['\u03BA']⟩,
   ⟨['K', 'c', 'e', 'd', 'i', 'l'], ['\u0136']⟩,
   ⟨['k', 'c', 'e', 'd', 'i', 'l'], ['\u0137']⟩,
   ⟨['k', 'g', 'r', 'e', 'e', 'n'], ['\u0138']⟩,
   ⟨['L', 'a', 'c', 'u', 't', 'e'], ['\u0139']⟩,
   ⟨['l', 'a', 'c', 'u', 't', 'e'], ['\u013A']⟩,
   ⟨['L', 'a', 'm', 'b', 'd', 'a'], ['\u039B']⟩,
   ⟨['l', 'a', 'm', 'b', 'd', 'a'], ['\u03BB']⟩,
   ⟨['l', 'a', 'n', 'g'], ['\u2329']⟩,
   ⟨['l', 'a', 'q', 'u', 'o'], ['\u00AB']⟩,
   ⟨['l', 'A', 'r', 'r'], ['\u21D0']⟩,
   ⟨['l', 'a', 'r', 'r'], ['\u2190']⟩,
   ⟨['L', 'c', 'a', 'r', 'o', 'n'], ['\u013D']⟩,
   ⟨['l', 'c', 'a', 'r', 'o', 'n'], ['\u013E']⟩,
   ⟨['L', 'c', 'e', 'd', 'i', 'l'], ['\u013B']⟩,
   ⟨['l', 'c', 'e', 'd', 'i', 'l'], ['\u013C']⟩,
   ⟨['l', 'c', 'e', 'i', 'l'], ['\u2308']⟩,
   ⟨['l', 'c', 'u', 'b'], ['{']⟩,
   ⟨['l', 'd', 'q', 'u', 'o'], ['\u201C']⟩,
   ⟨['l', 'e'], ['\u2264']⟩,
   ⟨['l', 'f', 'l', 'o', 'o', 'r'], ['\u230A']⟩,
   ⟨['L', 'm', 'i', 'd', 'o', 't'], ['\u013F']⟩,
   ⟨['l', 'm', 'i', 'd', 'o', 't'], ['\u0140']⟩,
   ⟨['l', 'o', 'w', 'a', 's', 't'], ['\u2217']⟩,
   ⟨['l', 'o', 'z'], ['\u25CA']⟩,
   ⟨['l', 'p', 'a', 'r'], ['(']⟩,
   ⟨['l', 'r', 'm'], ['\u200E']⟩,
   ⟨['l', 's', 'a', 'q', 'u', 'o'], ['\u2039']⟩,
   ⟨['l', 's', 'q', 'b'], ['[']⟩,
   ⟨['l', 's', 'q', 'u', 'o'], ['\u2018']⟩,
   ⟨['L', 's', 't', 'r', 'o', 'k'], ['\u0141']⟩,
   ⟨['l', 's', 't', 'r', 'o', 'k'], ['\u0142']⟩,
   ⟨['l', 't'], ['<']⟩,
   ⟨['m', 'a', 'c', 'r'], ['\u00AF']⟩,
   ⟨['m', 'd', 'a', 's', 'h'], ['\u2014']⟩,
   ⟨['m', 'i', 'c', 'r', 'o'], ['\u00B5']⟩,
   ⟨['m', 'i', 'd', 'd', 'o', 't'], ['\u00B7']⟩,
   ⟨['m', 'i', 'n', 'u', 's'], ['\u2212']⟩,
   ⟨['M', 'u'], ['\u039C']⟩,
   ⟨['m', 'u'], ['\u03BC']⟩,
   ⟨['n', 'a', 'b', 'l', 'a'], ['\u2207']⟩,
   ⟨['N', 'a', 'c', 'u', 't', 'e'], ['\u0143']⟩,
   ⟨['n', 'a', 'c', 'u', 't', 'e'], ['\u0144']⟩,
   ⟨['n', 'a', 'p', 'o', 's'], ['\u0149']⟩,
   ⟨['n', 'b', 's', 'p'], ['\u00A0']⟩,
   ⟨['N', 'c', 'a', 'r', 'o', 'n'], ['\u0147']⟩,
   ⟨['n', 'c', 'a', 'r', 'o', 'n'], ['\u0148']⟩,
   ⟨['N', 'c', 'e', 'd', 'i', 'l'], ['\u0145']⟩,
   ⟨['n', 'c', 'e', 'd', 'i', 'l'], ['\u0146']⟩,
   ⟨['n', 'd', 'a', 's', 'h'], ['\u2013']⟩,
   ⟨['n', 'e'], ['\u2260']⟩,
   ⟨['n', 'i'], ['\u220B']⟩,
   ⟨['n', 'o', 't'], ['\u00AC']⟩,
   ⟨['n', 'o', 't', 'i', 'n'], ['\u2209']⟩,
   ⟨['n', 's', 'u', 'b'], ['\u2284']⟩,
   ⟨['N', 't', 'i', 'l', 'd', 'e'], ['\u00D1']⟩,
   ⟨['n', 't', 'i', 'l', 'd', 'e'], ['\u00F1']⟩,
   ⟨['N', 'u'], ['\u039D']⟩,
   ⟨['n', 'u'], ['\u03BD']⟩,
   ⟨['n', 'u', 'm'], ['#']⟩,
   ⟨['O', 'a', 'c', 'u', 't', 'e'], ['\u00D3']⟩,
   ⟨['o', 'a', 'c', 'u', 't', 'e'], ['\u00F3']⟩,
   ⟨['O', 'c', 'i', 'r', 'c'], ['\u00D4']⟩,
   ⟨['o', 'c', 'i', 'r', 'c'], ['\u00F4']⟩,
   ⟨['O', 'd', 'b', 'l', 'a', 'c'], ['\u0150']⟩,
   ⟨['o', 'd', 'b', 'l', 'a', 'c'], ['\u0151']⟩,
   ⟨['O', 'E', 'l', 'i', 'g'], ['\u0152']⟩,
   ⟨['o', 'e', 'l', 'i', 'g'], ['\u0153']⟩,
   ⟨['O', 'g', 'r', 'a', 'v', 'e'], ['\u00D2']⟩,
   ⟨['o', 'g', 'r', 'a', 'v', 'e'], ['\u00F2']⟩,
   ⟨['o', 'l', 'i', 'n', 'e'], ['\u203E']⟩,
   ⟨['O', 'm', 'a', 'c', 'r'], ['\u014C']⟩,
   ⟨['o', 'm', 'a', 'c', 'r'], ['\u014D']⟩,
   ⟨['O', 'm', 'e', 'g', 'a'], ['\u03A9']⟩,
   ⟨['o', 'm', 'e', 'g', 'a'], ['\u03C9']⟩,
   ⟨['O', 'm', 'i', 'c', 'r', 'o', 'n'], ['\u039F']⟩,
   ⟨['o', 'm', 'i', 'c', 'r', 'o', 'n'], ['\u03BF']⟩,
   ⟨['o', 'p', 'l', 'u', 's'], ['\u2295']⟩,
   ⟨['o', 'r'], ['\u2228']⟩,
   ⟨['o', 'r', 'd', 'f'], ['\u00AA']⟩,
   ⟨['o', 'r', 'd', 'm'], ['\u00BA']⟩,
   ⟨['O', 's', 'l', 'a', 's', 'h'], ['\u00D8']⟩,
   ⟨['o', 's', 'l', 'a', 's', 'h'], ['\u00F8']⟩,
   ⟨['O', 't', 'i', 'l', 'd', 'e'], ['\u00D5']⟩,
   ⟨['o', 't', 'i', 'l', 'd', 'e'], ['\u00F5']⟩,
   ⟨['o', 't', 'i', 'm', 'e', 's'], ['\u2297']⟩,
   ⟨['O', 'u', 'm', 'l'], ['\u00D6']⟩,
   ⟨['o', 'u', 'm', 'l'], ['\u00F6']⟩,
   ⟨['p', 'a', 'r', 'a'], ['\u00B6']⟩,
   ⟨['p', 'a', 'r', 't'], ['\u2202']⟩,
   ⟨['p', 'e', 'r', 'c', 'n', 't'], ['%']⟩,
   ⟨['p', 'e', 'r', 'm', 'i', 'l'], ['\u2030']⟩,
   ⟨['p', 'e', 'r', 'p'], ['\u22A5']⟩,
   ⟨['P', 'h', 'i'], ['\u03A6']⟩,
   ⟨['p', 'h', 'i'], ['\u03C6']⟩,
   ⟨['P', 'i'], ['\u03A0']⟩,
   ⟨['p', 'i'], ['\u03C0']⟩,
   ⟨['p', 'i', 'v'], ['\u03D6']⟩,
   ⟨['p', 'l', 'u', 's', 'm', 'n'], ['\u00B1']⟩,
   ⟨['p', 'o', 'u', 'n', 'd'], ['\u00A3']⟩,
   ⟨['P', 'r', 'i', 'm', 'e'], ['\u2033']⟩,
   ⟨['p', 'r', 'i', 'm', 'e'], ['\u2032']⟩,
   ⟨['p', 'r', 'o', 'd'], ['\u220F']⟩,
   ⟨['p', 'r', 'o', 'p'], ['\u221D']⟩,
   ⟨['P', 's', 'i'], ['\u03A8']⟩,
   ⟨['p', 's', 'i'], ['\u03C8']⟩,
   ⟨['q', 'u', 'o', 't'], ['"']⟩,
   ⟨['R', 'a', 'c', 'u', 't', 'e'], ['\u0154']⟩,
   ⟨['r', 'a', 'c', 'u', 't', 'e'], ['\u0155']⟩,
   ⟨['r', 'a', 'd', 'i', 'c'], ['\u221A']⟩,
   ⟨['r', 'a', 'n', 'g'], ['\u232A']⟩,
   ⟨['r', 'a', 'q', 'u', 'o'], ['\u00BB']⟩,
   ⟨['r', 'A', 'r', 'r'], ['\u21D2']⟩,
   ⟨['r', 'a', 'r', 'r'], ['\u2192']⟩,
   ⟨['R', 'c', 'a', 'r', 'o', 'n'], ['\u0158']⟩,
   ⟨['r', 'c', 'a', 'r', 'o', 'n'], ['\u0159']⟩,
   ⟨['R', 'c', 'e', 'd', 'i', 'l'], ['\u0156']⟩,
   ⟨['r', 'c', 'e', 'd', 'i', 'l'], ['\u0157']⟩,
   ⟨['r', 'c', 'e', 'i', 'l'], ['\u2309']⟩,
   ⟨['r', 'c', 'u', 'b'], ['}']⟩,
   ⟨['r', 'd', 'q', 'u', 'o'], ['\u201D']⟩,
   ⟨['r', 'e', 'a', 'l'], ['\u211C']⟩,
   ⟨['r', 'e', 'g'], ['\u00AE']⟩,
   ⟨['r', 'f', 'l', 'o', 'o', 'r'], ['\u230B']⟩,
   ⟨['R', 'h', 'o'], ['\u03A1']⟩,
   ⟨['r', 'h', 'o'], ['\u03C1']⟩,
   ⟨['r', 'l', 'm'], ['\u200F']⟩,
   ⟨['r', 'p', 'a', 'r'], [')']⟩,
   ⟨['r', 's', 'a', 'q', 'u', 'o'], ['\u203A']⟩,
   ⟨['r', 's', 'q', 'b'], [']']⟩,
   ⟨['r', 's', 'q', 'u', 'o'], ['\u2019']⟩,
   ⟨['S', 'a', 'c', 'u', 't', 'e'], ['\u015A']⟩,
   ⟨['s', 'a', 'c', 'u', 't', 'e'], ['\u015B']⟩,
   ⟨['s', 'b', 'q', 'u', 'o'], ['\u201A']⟩,
   ⟨['S', 'c', 'a', 'r', 'o', 'n'], ['\u0160']⟩,
   ⟨['s', 'c', 'a', 'r', 'o', 'n'], ['\u0161']⟩,
   ⟨['S', 'c', 'e', 'd', 'i', 'l'], ['\u015E']⟩,
   ⟨['s', 'c', 'e', 'd', 'i', 'l'], ['\u015F']⟩,
   ⟨['S', 'c', 'i', 'r', 'c'], ['\u015C']⟩,
   ⟨['s', 'c', 'i', 'r', 'c'], ['\u015D']⟩,
   ⟨['s', 'd', 'o', 't'], ['\u22C5']⟩,
   ⟨['s', 'e', 'c', 't'], ['\u00A7']⟩,
   ⟨['s', 'h', 'y'], ['\u00AD']⟩,
   ⟨['S', 'i', 'g', 'm', 'a'], ['\u03A3']⟩,
   ⟨['s', 'i', 'g', 'm', 'a'], ['\u03C3']⟩,
   ⟨['s', 'i', 'g', 'm', 'a', 'f'], ['\u03C2']⟩,
   ⟨['s', 'i', 'm'], ['\u223C']⟩,
   ⟨['S', 'm', 'a', 'c', 'r'], ['S', '\u0304']⟩,
   ⟨['s', 'm', 'a', 'c', 'r'], ['s', '\u0304']⟩,
   ⟨['s', 'p', 'a', 'd', 'e', 's'], ['\u2660']⟩,
   ⟨['s', 'u', 'b'], ['\u2282']⟩,
   ⟨['s', 'u', 'b', 'e'], ['\u2286']⟩,
   ⟨['s', 'u', 'm'], ['\u2211']⟩,
   ⟨['s', 'u', 'p'], ['\u2283']⟩,
   ⟨['s', 'u', 'p', '1'], ['\u00B9']⟩,
   ⟨['s', 'u', 'p', '2'], ['\u00B2']⟩,
   ⟨['s', 'u', 'p', '3'], ['\u00B3']⟩,
   ⟨['s', 'u', 'p', 'e'], ['\u2287']⟩,
   ⟨['s', 'z', 'l', 'i', 'g'], ['\u00DF']⟩,
   ⟨['T', 'a', 'u'], ['\u03A4']⟩,
   ⟨['t', 'a', 'u'], ['\u03C4']⟩,
   ⟨['T', 'c', 'a', 'r', 'o', 'n'], ['\u0164']⟩,
   ⟨['t', 'c', 'a', 'r', 'o', 'n'], ['\u0165']⟩,
   ⟨['T', 'c', 'e', 'd', 'i', 'l'], ['\u0162']⟩,
   ⟨['t', 'c', 'e', 'd', 'i', 'l'], ['\u0163']⟩,
   ⟨['t', 'h', 'e', 'r', 'e', '4'], ['\u2234']⟩,
   ⟨['T', 'h', 'e', 't', 'a'], ['\u0398']⟩,
   ⟨['t', 'h', 'e', 't', 'a'], ['\u03B8']⟩,
   ⟨['t', 'h', 'e', 't', 'a', 's', 'y', 'm'], ['\u03D1']⟩,
   ⟨['t', 'h', 'i', 'n', 's', 'p'], ['\u2009']⟩,
   ⟨['T', 'H', 'O', 'R', 'N'], ['\u00DE']⟩,
   ⟨['t', 'h', 'o', 'r', 'n'], ['\u00FE']⟩,
   ⟨['t', 'i', 'l', 'd', 'e'], ['\u02DC']⟩,
   ⟨['t', 'i', 'm', 'e', 's'], ['\u00D7']⟩,
   ⟨['t', 'r', 'a', 'd', 'e'], ['\u2122']⟩,
   ⟨['T', 's', 't', 'r', 'o', 'k'], ['\u0166']⟩,
   ⟨['t', 's', 't', 'r', 'o', 'k'], ['\u0167']⟩,
   ⟨['U', 'a', 'c', 'u', 't', 'e'], ['\u00DA']⟩,
   ⟨['u', 'a', 'c', 'u', 't', 'e'], ['\u00FA']⟩,
   ⟨['u', 'A', 'r', 'r'], ['\u21D1']⟩,
   ⟨['u', 'a', 'r', 'r'], ['\u2191']⟩,
   ⟨['U', 'b', 'r', 'e', 'v', 'e'], ['\u016C']⟩,
   ⟨['u', 'b', 'r', 'e', 'v', 'e'], ['\u016D']⟩,
   ⟨['U', 'c', 'i', 'r', 'c'], ['\u00DB']⟩,
   ⟨['u', 'c', 'i', 'r', 'c'], ['\u00FB']⟩,
   ⟨['U', 'd', 'b', 'l', 'a', 'c'], ['\u0170']⟩,
   ⟨['u', 'd', 'b', 'l', 'a', 'c'], ['\u0171']⟩,
   ⟨['U', 'g', 'r', 'a', 'v', 'e'], ['\u00D9']⟩,
   ⟨['u', 'g', 'r', 'a', 'v', 'e'], ['\u00F9']⟩,
   ⟨['U', 'm', 'a', 'c', 'r'], ['\u016A']⟩,
   ⟨['u', 'm', 'a', 'c', 'r'], ['\u016B']⟩,
   ⟨['u', 'm', 'l'], ['\u00A8']⟩,
   ⟨['U', 'o', 'g', 'o', 'n'], ['\u0172']⟩,
   ⟨['u', 'o', 'g', 'o', 'n'], ['\u0173']⟩,
   ⟨['u', 'p', 's', 'i', 'h'], ['\u03D2']⟩,
   ⟨['U', 'p', 's', 'i', 'l', 'o', 'n'], ['\u03A5']⟩,
   ⟨['u', 'p', 's', 'i', 'l', 'o', 'n'], ['\u03C5']⟩,
   ⟨['U', 'r', 'i', 'n', 'g'], ['\u016E']⟩,
   ⟨['u', 'r', 'i', 'n', 'g'], ['\u016F']⟩,
   ⟨['U', 't', 'i', 'l', 'd', 'e'], ['\u0168']⟩,
   ⟨['u', 't', 'i', 'l', 'd', 'e'], ['\u0169']⟩,
   ⟨['U', 'u', 'm', 'l'], ['\u00DC']⟩,
   ⟨['u', 'u', 'm', 'l'], ['\u00FC']⟩,
   ⟨['W', 'c', 'i', 'r', 'c'], ['\u0174']⟩,
   ⟨['w', 'c', 'i', 'r', 'c'], ['\u0175']⟩,
   ⟨['w', 'e', 'i', 'e', 'r', 'p'], ['\u2118']⟩,
   ⟨['X', 'i'], ['\u039E']⟩,
   ⟨['x', 'i'], ['\u03BE']⟩,
   ⟨['Y', 'a', 'c', 'u', 't', 'e'], ['\u00DD']⟩,
   ⟨['y', 'a', 'c', 'u', 't', 'e'], ['\u00FD']⟩,
   ⟨['Y', 'c', 'i', 'r', 'c'], ['\u0176']⟩,
   ⟨['y', 'c', 'i', 'r', 'c'], ['\u0177']⟩,
   ⟨['y', 'e', 'n'], ['\u00A5']⟩,
   ⟨['Y', 'u', 'm', 'l'], ['\u0178']⟩,
   ⟨['y', 'u', 'm', 'l'], ['\u00FF']⟩,
   ⟨['Z', 'a', 'c', 'u', 't', 'e'], ['\u0179']⟩,
   ⟨['z', 'a', 'c', 'u', 't', 'e'], ['\u017A']⟩,
   ⟨['Z', 'c', 'a', 'r', 'o', 'n'], ['\u017D']⟩,
   ⟨['z', 'c', 'a', 'r', 'o', 'n'], ['\u017E']⟩,
   ⟨['Z', 'd', 'o', 't'], ['\u017B']⟩,
   ⟨['z', 'd', 'o', 't'], ['\u017C']⟩,
   ⟨['Z', 'e', 't', 'a'], ['\u0396']⟩,
   ⟨['z', 'e', 't', 'a'], ['\u03B6']⟩,
   ⟨['z', 'w', 'j'], ['\u200D']⟩,
   ⟨['z', 'w', 'n', 'j'], ['\u200C']⟩]

def scalarsOf? (name : List Char) : Option (List Char) :=
  (entities.find? (·.name = name)).map Entity.scalars

def nameOf? (scalars : List Char) : Option (List Char) :=
  (entities.find? (·.scalars = scalars)).map Entity.name

end Recognition.Sgml
