/-!
# Blocks of Unicode 14.0.0

The blocks and the gaps between them in order, with their lengths. Older names follow a bar.
-/

namespace SchemaRegex.Unicode

def blockLengths : List (Option String × Nat) :=
  [(some "BasicLatin", 128), (some "Latin-1Supplement", 128), (some "LatinExtended-A", 128),
    (some "LatinExtended-B", 208), (some "IPAExtensions", 96),
    (some "SpacingModifierLetters", 80), (some "CombiningDiacriticalMarks", 112),
    (some "GreekandCoptic|Greek", 144), (some "Cyrillic", 256), (some "CyrillicSupplement", 48),
    (some "Armenian", 96), (some "Hebrew", 112), (some "Arabic", 256), (some "Syriac", 80),
    (some "ArabicSupplement", 48), (some "Thaana", 64), (some "NKo", 64), (some "Samaritan", 64),
    (some "Mandaic", 32), (some "SyriacSupplement", 16), (some "ArabicExtended-B", 48),
    (some "ArabicExtended-A", 96), (some "Devanagari", 128), (some "Bengali", 128),
    (some "Gurmukhi", 128), (some "Gujarati", 128), (some "Oriya", 128), (some "Tamil", 128),
    (some "Telugu", 128), (some "Kannada", 128), (some "Malayalam", 128), (some "Sinhala", 128),
    (some "Thai", 128), (some "Lao", 128), (some "Tibetan", 256), (some "Myanmar", 160),
    (some "Georgian", 96), (some "HangulJamo", 256), (some "Ethiopic", 384),
    (some "EthiopicSupplement", 32), (some "Cherokee", 96),
    (some "UnifiedCanadianAboriginalSyllabics", 640), (some "Ogham", 32), (some "Runic", 96),
    (some "Tagalog", 32), (some "Hanunoo", 32), (some "Buhid", 32), (some "Tagbanwa", 32),
    (some "Khmer", 128), (some "Mongolian", 176),
    (some "UnifiedCanadianAboriginalSyllabicsExtended", 80), (some "Limbu", 80),
    (some "TaiLe", 48), (some "NewTaiLue", 96), (some "KhmerSymbols", 32), (some "Buginese", 32),
    (some "TaiTham", 144), (some "CombiningDiacriticalMarksExtended", 80),
    (some "Balinese", 128), (some "Sundanese", 64), (some "Batak", 64), (some "Lepcha", 80),
    (some "OlChiki", 48), (some "CyrillicExtended-C", 16), (some "GeorgianExtended", 48),
    (some "SundaneseSupplement", 16), (some "VedicExtensions", 48),
    (some "PhoneticExtensions", 128), (some "PhoneticExtensionsSupplement", 64),
    (some "CombiningDiacriticalMarksSupplement", 64), (some "LatinExtendedAdditional", 256),
    (some "GreekExtended", 256), (some "GeneralPunctuation", 112),
    (some "SuperscriptsandSubscripts", 48), (some "CurrencySymbols", 48),
    (some "CombiningDiacriticalMarksforSymbols|CombiningMarksforSymbols", 48),
    (some "LetterlikeSymbols", 80), (some "NumberForms", 64), (some "Arrows", 112),
    (some "MathematicalOperators", 256), (some "MiscellaneousTechnical", 256),
    (some "ControlPictures", 64), (some "OpticalCharacterRecognition", 32),
    (some "EnclosedAlphanumerics", 160), (some "BoxDrawing", 128), (some "BlockElements", 32),
    (some "GeometricShapes", 96), (some "MiscellaneousSymbols", 256), (some "Dingbats", 192),
    (some "MiscellaneousMathematicalSymbols-A", 48), (some "SupplementalArrows-A", 16),
    (some "BraillePatterns", 256), (some "SupplementalArrows-B", 128),
    (some "MiscellaneousMathematicalSymbols-B", 128),
    (some "SupplementalMathematicalOperators", 256), (some "MiscellaneousSymbolsandArrows", 256),
    (some "Glagolitic", 96), (some "LatinExtended-C", 32), (some "Coptic", 128),
    (some "GeorgianSupplement", 48), (some "Tifinagh", 80), (some "EthiopicExtended", 96),
    (some "CyrillicExtended-A", 32), (some "SupplementalPunctuation", 128),
    (some "CJKRadicalsSupplement", 128), (some "KangxiRadicals", 224), (none, 16),
    (some "IdeographicDescriptionCharacters", 16), (some "CJKSymbolsandPunctuation", 64),
    (some "Hiragana", 96), (some "Katakana", 96), (some "Bopomofo", 48),
    (some "HangulCompatibilityJamo", 96), (some "Kanbun", 16), (some "BopomofoExtended", 32),
    (some "CJKStrokes", 48), (some "KatakanaPhoneticExtensions", 16),
    (some "EnclosedCJKLettersandMonths", 256), (some "CJKCompatibility", 256),
    (some "CJKUnifiedIdeographsExtensionA", 6592), (some "YijingHexagramSymbols", 64),
    (some "CJKUnifiedIdeographs", 20992), (some "YiSyllables", 1168), (some "YiRadicals", 64),
    (some "Lisu", 48), (some "Vai", 320), (some "CyrillicExtended-B", 96), (some "Bamum", 96),
    (some "ModifierToneLetters", 32), (some "LatinExtended-D", 224), (some "SylotiNagri", 48),
    (some "CommonIndicNumberForms", 16), (some "Phags-pa", 64), (some "Saurashtra", 96),
    (some "DevanagariExtended", 32), (some "KayahLi", 48), (some "Rejang", 48),
    (some "HangulJamoExtended-A", 32), (some "Javanese", 96), (some "MyanmarExtended-B", 32),
    (some "Cham", 96), (some "MyanmarExtended-A", 32), (some "TaiViet", 96),
    (some "MeeteiMayekExtensions", 32), (some "EthiopicExtended-A", 48),
    (some "LatinExtended-E", 64), (some "CherokeeSupplement", 80), (some "MeeteiMayek", 64),
    (some "HangulSyllables", 11184), (some "HangulJamoExtended-B", 80),
    (some "HighSurrogates", 896), (some "HighPrivateUseSurrogates", 128),
    (some "LowSurrogates", 1024), (some "PrivateUseArea|PrivateUse", 6400),
    (some "CJKCompatibilityIdeographs", 512), (some "AlphabeticPresentationForms", 80),
    (some "ArabicPresentationForms-A", 688), (some "VariationSelectors", 16),
    (some "VerticalForms", 16), (some "CombiningHalfMarks", 16),
    (some "CJKCompatibilityForms", 32), (some "SmallFormVariants", 32),
    (some "ArabicPresentationForms-B", 144), (some "HalfwidthandFullwidthForms", 240),
    (some "Specials", 16), (some "LinearBSyllabary", 128), (some "LinearBIdeograms", 128),
    (some "AegeanNumbers", 64), (some "AncientGreekNumbers", 80), (some "AncientSymbols", 64),
    (some "PhaistosDisc", 48), (none, 128), (some "Lycian", 32), (some "Carian", 64),
    (some "CopticEpactNumbers", 32), (some "OldItalic", 48), (some "Gothic", 32),
    (some "OldPermic", 48), (some "Ugaritic", 32), (some "OldPersian", 64), (none, 32),
    (some "Deseret", 80), (some "Shavian", 48), (some "Osmanya", 48), (some "Osage", 80),
    (some "Elbasan", 48), (some "CaucasianAlbanian", 64), (some "Vithkuqi", 80), (none, 64),
    (some "LinearA", 384), (some "LatinExtended-F", 64), (none, 64),
    (some "CypriotSyllabary", 64), (some "ImperialAramaic", 32), (some "Palmyrene", 32),
    (some "Nabataean", 48), (none, 48), (some "Hatran", 32), (some "Phoenician", 32),
    (some "Lydian", 32), (none, 64), (some "MeroiticHieroglyphs", 32),
    (some "MeroiticCursive", 96), (some "Kharoshthi", 96), (some "OldSouthArabian", 32),
    (some "OldNorthArabian", 32), (none, 32), (some "Manichaean", 64), (some "Avestan", 64),
    (some "InscriptionalParthian", 32), (some "InscriptionalPahlavi", 32),
    (some "PsalterPahlavi", 48), (none, 80), (some "OldTurkic", 80), (none, 48),
    (some "OldHungarian", 128), (some "HanifiRohingya", 64), (none, 288),
    (some "RumiNumeralSymbols", 32), (some "Yezidi", 64), (none, 64), (some "OldSogdian", 48),
    (some "Sogdian", 64), (some "OldUyghur", 64), (some "Chorasmian", 48), (some "Elymaic", 32),
    (some "Brahmi", 128), (some "Kaithi", 80), (some "SoraSompeng", 48), (some "Chakma", 80),
    (some "Mahajani", 48), (some "Sharada", 96), (some "SinhalaArchaicNumbers", 32),
    (some "Khojki", 80), (none, 48), (some "Multani", 48), (some "Khudawadi", 80),
    (some "Grantha", 128), (none, 128), (some "Newa", 128), (some "Tirhuta", 96), (none, 160),
    (some "Siddham", 128), (some "Modi", 96), (some "MongolianSupplement", 32),
    (some "Takri", 80), (none, 48), (some "Ahom", 80), (none, 176), (some "Dogra", 80),
    (none, 80), (some "WarangCiti", 96), (some "DivesAkuru", 96), (none, 64),
    (some "Nandinagari", 96), (some "ZanabazarSquare", 80), (some "Soyombo", 96),
    (some "UnifiedCanadianAboriginalSyllabicsExtended-A", 16), (some "PauCinHau", 64),
    (none, 256), (some "Bhaiksuki", 112), (some "Marchen", 80), (none, 64),
    (some "MasaramGondi", 96), (some "GunjalaGondi", 80), (none, 304), (some "Makasar", 32),
    (none, 176), (some "LisuSupplement", 16), (some "TamilSupplement", 64),
    (some "Cuneiform", 1024), (some "CuneiformNumbersandPunctuation", 128),
    (some "EarlyDynasticCuneiform", 208), (none, 2624), (some "Cypro-Minoan", 112),
    (some "EgyptianHieroglyphs", 1072), (some "EgyptianHieroglyphFormatControls", 16),
    (none, 4032), (some "AnatolianHieroglyphs", 640), (none, 8576),
    (some "BamumSupplement", 576), (some "Mro", 48), (some "Tangsa", 96), (some "BassaVah", 48),
    (some "PahawhHmong", 144), (none, 688), (some "Medefaidrin", 96), (none, 96),
    (some "Miao", 160), (none, 64), (some "IdeographicSymbolsandPunctuation", 32),
    (some "Tangut", 6144), (some "TangutComponents", 768), (some "KhitanSmallScript", 512),
    (some "TangutSupplement", 128), (none, 8816), (some "KanaExtended-B", 16),
    (some "KanaSupplement", 256), (some "KanaExtended-A", 48), (some "SmallKanaExtension", 64),
    (some "Nushu", 400), (none, 2304), (some "Duployan", 160),
    (some "ShorthandFormatControls", 16), (none, 4688), (some "ZnamennyMusicalNotation", 208),
    (none, 48), (some "ByzantineMusicalSymbols", 256), (some "MusicalSymbols", 256),
    (some "AncientGreekMusicalNotation", 80), (none, 144), (some "MayanNumerals", 32),
    (some "TaiXuanJingSymbols", 96), (some "CountingRodNumerals", 32), (none, 128),
    (some "MathematicalAlphanumericSymbols", 1024), (some "SuttonSignWriting", 688),
    (none, 1104), (some "LatinExtended-G", 256), (some "GlagoliticSupplement", 48), (none, 208),
    (some "NyiakengPuachueHmong", 80), (none, 320), (some "Toto", 48), (some "Wancho", 64),
    (none, 1248), (some "EthiopicExtended-B", 32), (some "MendeKikakui", 224), (none, 32),
    (some "Adlam", 96), (none, 784), (some "IndicSiyaqNumbers", 80), (none, 64),
    (some "OttomanSiyaqNumbers", 80), (none, 176),
    (some "ArabicMathematicalAlphabeticSymbols", 256), (none, 256), (some "MahjongTiles", 48),
    (some "DominoTiles", 112), (some "PlayingCards", 96),
    (some "EnclosedAlphanumericSupplement", 256), (some "EnclosedIdeographicSupplement", 256),
    (some "MiscellaneousSymbolsandPictographs", 768), (some "Emoticons", 80),
    (some "OrnamentalDingbats", 48), (some "TransportandMapSymbols", 128),
    (some "AlchemicalSymbols", 128), (some "GeometricShapesExtended", 128),
    (some "SupplementalArrows-C", 256), (some "SupplementalSymbolsandPictographs", 256),
    (some "ChessSymbols", 112), (some "SymbolsandPictographsExtended-A", 144),
    (some "SymbolsforLegacyComputing", 256), (none, 1024),
    (some "CJKUnifiedIdeographsExtensionB", 42720), (none, 32),
    (some "CJKUnifiedIdeographsExtensionC", 4160), (some "CJKUnifiedIdeographsExtensionD", 224),
    (some "CJKUnifiedIdeographsExtensionE", 5776), (some "CJKUnifiedIdeographsExtensionF", 7488),
    (none, 3088), (some "CJKCompatibilityIdeographsSupplement", 544), (none, 1504),
    (some "CJKUnifiedIdeographsExtensionG", 4944), (none, 715952), (some "Tags", 128),
    (none, 128), (some "VariationSelectorsSupplement", 240), (none, 65040),
    (some "SupplementaryPrivateUseArea-A|PrivateUse", 65536),
    (some "SupplementaryPrivateUseArea-B|PrivateUse", 65536)]

end SchemaRegex.Unicode
