/-!
# Canonical decomposition data

The Unicode 15 data behind the composed normal form: the canonical decomposition of each character
(one or two characters; Hangul syllables are computed, not listed), the canonical combining classes
and the characters that are never composed again. Most characters that decompose into a base and a
mark are listed by their mark, and most that decompose into one other stand in blocks.
-/

namespace WatScript.Text

def couples {α : Type} : List α → List (α × α)
  | a :: b :: rest => (a, b) :: couples rest
  | _ => []

/-- Characters that decompose into a base and one and the same mark. Each is listed before its base, and
the two stand for `count` characters, `gap` apart, whose bases are `shift` apart. -/
def withMark (mark count gap shift : Nat) (chars : String) : List (Nat × Nat × Nat) :=
  (couples chars.toList).flatMap fun (c, base) =>
    (List.range count).map fun i => (c.toNat + i * gap, base.toNat + i * shift, mark)

/-- Characters with a two-character decomposition that composition never restores, with both. -/
def excludedPairs : List (Nat × Nat × Nat) := [
  (0x344, 0x308, 0x301), (0x958, 0x915, 0x93C), (0x959, 0x916, 0x93C), (0x95A, 0x917, 0x93C),
  (0x95B, 0x91C, 0x93C), (0x95C, 0x921, 0x93C), (0x95D, 0x922, 0x93C), (0x95E, 0x92B, 0x93C),
  (0x95F, 0x92F, 0x93C), (0x9DC, 0x9A1, 0x9BC), (0x9DD, 0x9A2, 0x9BC), (0x9DF, 0x9AF, 0x9BC),
  (0xA33, 0xA32, 0xA3C), (0xA36, 0xA38, 0xA3C), (0xA59, 0xA16, 0xA3C), (0xA5A, 0xA17, 0xA3C),
  (0xA5B, 0xA1C, 0xA3C), (0xA5E, 0xA2B, 0xA3C), (0xB5C, 0xB21, 0xB3C), (0xB5D, 0xB22, 0xB3C),
  (0xF43, 0xF42, 0xFB7), (0xF4D, 0xF4C, 0xFB7), (0xF52, 0xF51, 0xFB7), (0xF57, 0xF56, 0xFB7),
  (0xF5C, 0xF5B, 0xFB7), (0xF69, 0xF40, 0xFB5), (0xF73, 0xF71, 0xF72), (0xF75, 0xF71, 0xF74),
  (0xF76, 0xFB2, 0xF80), (0xF78, 0xFB3, 0xF80), (0xF81, 0xF71, 0xF80), (0xF93, 0xF92, 0xFB7),
  (0xF9D, 0xF9C, 0xFB7), (0xFA2, 0xFA1, 0xFB7), (0xFA7, 0xFA6, 0xFB7), (0xFAC, 0xFAB, 0xFB7),
  (0xFB9, 0xF90, 0xFB5), (0x2ADC, 0x2ADD, 0x338), (0xFB1D, 0x5D9, 0x5B4), (0xFB1F, 0x5F2, 0x5B7),
  (0xFB2A, 0x5E9, 0x5C1), (0xFB2B, 0x5E9, 0x5C2), (0xFB2C, 0xFB49, 0x5C1),
  (0xFB2D, 0xFB49, 0x5C2), (0xFB2E, 0x5D0, 0x5B7), (0xFB2F, 0x5D0, 0x5B8), (0xFB30, 0x5D0, 0x5BC),
  (0xFB31, 0x5D1, 0x5BC), (0xFB32, 0x5D2, 0x5BC), (0xFB33, 0x5D3, 0x5BC), (0xFB34, 0x5D4, 0x5BC),
  (0xFB35, 0x5D5, 0x5BC), (0xFB36, 0x5D6, 0x5BC), (0xFB38, 0x5D8, 0x5BC), (0xFB39, 0x5D9, 0x5BC),
  (0xFB3A, 0x5DA, 0x5BC), (0xFB3B, 0x5DB, 0x5BC), (0xFB3C, 0x5DC, 0x5BC), (0xFB3E, 0x5DE, 0x5BC),
  (0xFB40, 0x5E0, 0x5BC), (0xFB41, 0x5E1, 0x5BC), (0xFB43, 0x5E3, 0x5BC), (0xFB44, 0x5E4, 0x5BC),
  (0xFB46, 0x5E6, 0x5BC), (0xFB47, 0x5E7, 0x5BC), (0xFB48, 0x5E8, 0x5BC), (0xFB49, 0x5E9, 0x5BC),
  (0xFB4A, 0x5EA, 0x5BC), (0xFB4B, 0x5D5, 0x5B9), (0xFB4C, 0x5D1, 0x5BF), (0xFB4D, 0x5DB, 0x5BF),
  (0xFB4E, 0x5E4, 0x5BF), (0x1D15E, 0x1D157, 0x1D165), (0x1D15F, 0x1D158, 0x1D165),
  (0x1D160, 0x1D15F, 0x1D16E), (0x1D161, 0x1D15F, 0x1D16F), (0x1D162, 0x1D15F, 0x1D170),
  (0x1D163, 0x1D15F, 0x1D171), (0x1D164, 0x1D15F, 0x1D172), (0x1D1BB, 0x1D1B9, 0x1D165),
  (0x1D1BC, 0x1D1BA, 0x1D165), (0x1D1BD, 0x1D1BB, 0x1D16E), (0x1D1BE, 0x1D1BC, 0x1D16E),
  (0x1D1BF, 0x1D1BB, 0x1D16F), (0x1D1C0, 0x1D1BC, 0x1D16F)]

/-- Characters that are composed of a base and one of the more frequent marks, with both. -/
def markedPairs : List (Nat × Nat × Nat) := List.flatten [
  withMark 0x300 2 1 1 "ḔĒṐŌẰĂỜƠỪƯὒὐ",
  withMark 0x300 2 1 32 "ǛÜǸNẀWẦÂỀÊỒÔỲY",
  withMark 0x300 2 32 32 "ÀAÈEÌIÒOÙUἂἀἃἁἊἈἋἉἒἐἓἑἚἘἛἙὂὀὃὁὊὈὋὉ",
  withMark 0x300 2 80 32 "ЀЕЍИ",
  withMark 0x300 1 0 0 "ὛὙὰαὲεὴηὶιὸοὺυὼωᾺΑῈΕῊΗ῍᾿ῒϊῚΙ῝῾ῢϋῪΥ῭¨ῸΟῺΩ",
  withMark 0x301 2 1 1 "ḖĒṒŌṸŨẮĂỚƠỨƯὔὐ",
  withMark 0x301 2 1 32 "ĆCĹLŃNŔRŚSŹZǗÜǴGǺÅǼÆǾØḈÇḮÏḰKḾMṌÕṔPẂWẤÂẾÊỐÔ",
  withMark 0x301 2 32 32 "ÁAÉEÍIÓOÚUÝYἄἀἅἁἌἈἍἉἔἐἕἑἜἘἝἙὄὀὅὁὌὈὍὉ",
  withMark 0x301 2 80 32 "ЃГЌК",
  withMark 0x301 1 0 0 "΅¨ΆΑΈΕΉΗΊΙΌΟΎΥΏΩΐϊάαέεήηίιΰϋόούυώωϓϒὝὙ῎᾿῞῾",
  withMark 0x302 2 1 1 "ẬẠỆẸỘỌ",
  withMark 0x302 2 1 32 "ĈCĜGĤHĴJŜSŴWŶYẐZ",
  withMark 0x302 2 32 32 "ÂAÊEÎIÔOÛU",
  withMark 0x303 2 1 1 "ẴĂỠƠỮƯ",
  withMark 0x303 2 1 32 "ĨIŨUṼVẪÂẼEỄÊỖÔỸY",
  withMark 0x303 2 32 32 "ÃAÑNÕO",
  withMark 0x304 2 1 1 "ǠȦǬǪȰȮḸḶṜṚ",
  withMark 0x304 2 1 32 "ĀAĒEĪIŌOŪUǕÜǞÄǢÆȪÖȬÕȲYӢИӮУḠG",
  withMark 0x304 1 0 0 "ᾱαᾹΑῑιῙΙῡυῩΥ",
  withMark 0x306 2 1 1 "ḜȨẶẠ",
  withMark 0x306 2 1 32 "ĂAĔEĞGĬIŎOŬUӁЖӐАӖЕ",
  withMark 0x306 2 32 32 "ЙИ",
  withMark 0x306 2 80 32 "ЎУ",
  withMark 0x306 1 0 0 "ᾰαᾸΑῐιῘΙῠυῨΥ",
  withMark 0x307 2 1 1 "ṤŚṦŠṨṢ",
  withMark 0x307 2 1 32 "ĊCĖEĠGŻZȦAȮOḂBḊDḞFḢHṀMṄNṖPṘRṠSṪTẆWẊXẎY",
  withMark 0x307 1 0 0 "İIẛſ",
  withMark 0x308 2 1 1 "ӚӘӪӨṺŪ",
  withMark 0x308 2 1 32 "ӒАӜЖӞЗӤИӦОӬЭӰУӴЧӸЫḦHṎÕẄWẌX",
  withMark 0x308 2 32 32 "ÄAËEÏIÖOÜUΪΙΫΥ",
  withMark 0x308 2 80 32 "ЁЕ",
  withMark 0x308 1 0 0 "ÿyŸYϔϒЇІїіẗt",
  withMark 0x309 2 1 1 "ẲĂỞƠỬƯ",
  withMark 0x309 2 1 32 "ẢAẨÂẺEỂÊỈIỎOỔÔỦUỶY",
  withMark 0x30A 2 1 32 "ŮU",
  withMark 0x30A 2 32 32 "ÅA",
  withMark 0x30A 1 0 0 "ẘwẙy",
  withMark 0x30B 2 1 32 "ŐOŰUӲУ",
  withMark 0x30C 2 1 32 "ČCĎDĚEĽLŇNŘRŠSŤTŽZǍAǏIǑOǓUǙÜǦGǨKȞH",
  withMark 0x30C 1 0 0 "ǮƷǯʒǰj",
  withMark 0x30F 2 1 1 "ѶѴ",
  withMark 0x30F 2 1 32 "ȀAȄEȈIȌOȐRȔU",
  withMark 0x311 2 1 32 "ȂAȆEȊIȎOȒRȖU",
  withMark 0x313 1 0 0 "ἀαἈΑἐεἘΕἠηἨΗἰιἸΙὀοὈΟὐυὠωὨΩῤρ",
  withMark 0x314 1 0 0 "ἁαἉΑἑεἙΕἡηἩΗἱιἹΙὁοὉΟὑυὙΥὡωὩΩῥρῬΡ",
  withMark 0x31B 2 1 32 "ƠOƯU",
  withMark 0x323 2 1 1 "ỢƠỰƯ",
  withMark 0x323 2 1 32 "ḄBḌDḤHḲKḶLṂMṆNṚRṢSṬTṾVẈWẒZẠAẸEỊIỌOỤUỴY",
  withMark 0x324 2 1 32 "ṲU",
  withMark 0x325 2 1 32 "ḀA",
  withMark 0x326 2 1 32 "ȘSȚT",
  withMark 0x327 2 1 32 "ĢGĶKĻLŅNŖRŞSŢTȨEḐDḨH",
  withMark 0x327 2 32 32 "ÇC",
  withMark 0x328 2 1 32 "ĄAĘEĮIŲUǪO",
  withMark 0x32D 2 1 32 "ḒDḘEḼLṊNṰTṶU",
  withMark 0x32E 2 1 32 "ḪH",
  withMark 0x330 2 1 32 "ḚEḬIṴU",
  withMark 0x331 2 1 32 "ḆBḎDḴKḺLṈNṞRṮTẔZ",
  withMark 0x331 1 0 0 "ẖh",
  withMark 0x338 2 1 1 "≰≤≴≲≸≶⊀≺⊄⊂⊈⊆⊭⊨⋠≼⋢⊑",
  withMark 0x338 2 32 32 "∄∃",
  withMark 0x338 4 1 1 "⋪⊲",
  withMark 0x338 1 0 0 "↚←↛→↮↔⇍⇐⇎⇔⇏⇒∉∈∌∋∦∥≁∼≄≃≇≅≉≈≠=≢≡≭≍≮<≯>⊬⊢⊯⊫",
  withMark 0x342 2 1 1 "ὦὠὮὨ",
  withMark 0x342 2 32 32 "ἆἀἇἁἎἈἏἉἶἰἷἱἿἹ",
  withMark 0x342 1 0 0 "ἾἸᾶα῁¨ῆη῏᾿ῖιῗϊ῟῾ῦυῧϋῶω",
  withMark 0x345 16 1 1 "ᾀἀᾐἠᾠὠ",
  withMark 0x345 1 0 0 "ᾲὰᾳαᾴάᾷᾶᾼΑῂὴῃηῄήῇῆῌΗῲὼῳωῴώῷῶῼΩ",
  withMark 0x654 1 0 0 "أاؤوئيۀەۂہۓے",
  withMark 0x1B35 2 1 1 "ᭀᬾ",
  withMark 0x1B35 5 2 2 "ᬆᬅ",
  withMark 0x1B35 1 0 0 "ᬒᬑᬻᬺᬽᬼᭃᭂ",
  withMark 0x3099 4 1 1 "ヷワ",
  withMark 0x3099 5 3 3 "ばはバハ",
  withMark 0x3099 12 2 2 "がかガカ",
  withMark 0x3099 1 0 0 "づつでてどとゔうゞゝヅツデテドトヴウヾヽ",
  withMark 0x309A 5 3 3 "ぱはパハ"]

/-- Characters that are composed of two in any other way, with both. -/
def otherPairs : List (Nat × Nat × Nat) := [
  (0x622, 0x627, 0x653), (0x625, 0x627, 0x655), (0x929, 0x928, 0x93C), (0x931, 0x930, 0x93C),
  (0x934, 0x933, 0x93C), (0x9CB, 0x9C7, 0x9BE), (0x9CC, 0x9C7, 0x9D7), (0xB48, 0xB47, 0xB56),
  (0xB4B, 0xB47, 0xB3E), (0xB4C, 0xB47, 0xB57), (0xB94, 0xB92, 0xBD7), (0xBCA, 0xBC6, 0xBBE),
  (0xBCB, 0xBC7, 0xBBE), (0xBCC, 0xBC6, 0xBD7), (0xC48, 0xC46, 0xC56), (0xCC0, 0xCBF, 0xCD5),
  (0xCC7, 0xCC6, 0xCD5), (0xCC8, 0xCC6, 0xCD6), (0xCCA, 0xCC6, 0xCC2), (0xCCB, 0xCCA, 0xCD5),
  (0xD4A, 0xD46, 0xD3E), (0xD4B, 0xD47, 0xD3E), (0xD4C, 0xD46, 0xD57), (0xDDA, 0xDD9, 0xDCA),
  (0xDDC, 0xDD9, 0xDCF), (0xDDD, 0xDDC, 0xDCA), (0xDDE, 0xDD9, 0xDDF), (0x1026, 0x1025, 0x102E),
  (0x1109A, 0x11099, 0x110BA), (0x1109C, 0x1109B, 0x110BA), (0x110AB, 0x110A5, 0x110BA),
  (0x1112E, 0x11131, 0x11127), (0x1112F, 0x11132, 0x11127), (0x1134B, 0x11347, 0x1133E),
  (0x1134C, 0x11347, 0x11357), (0x114BB, 0x114B9, 0x114BA), (0x114BC, 0x114B9, 0x114B0),
  (0x114BE, 0x114B9, 0x114BD), (0x115BA, 0x115B8, 0x115AF), (0x115BB, 0x115B9, 0x115AF),
  (0x11938, 0x11935, 0x11930)]

def pairDecompositions : List (Nat × Nat × Nat) := excludedPairs ++ markedPairs ++ otherPairs

def compositionExclusions : List Nat := excludedPairs.map (·.1)

/-- Blocks of characters that decompose into one other each: the first character, the number of
characters, and what they decompose into. -/
def blockDecompositions : List (Nat × Nat × String) := [
  (0xF900, 270,
    "豈更車賈滑串句龜龜契金喇奈懶癩羅蘿螺裸邏樂洛烙珞落酪駱亂卵欄爛蘭鸞嵐濫藍襤拉臘蠟廊朗浪" ++
    "狼郎來冷勞擄櫓爐盧老蘆虜路露魯鷺碌祿綠菉錄鹿論壟弄籠聾牢磊賂雷壘屢樓淚漏累縷陋勒肋凜凌" ++
    "稜綾菱陵讀拏樂諾丹寧怒率異北磻便復不泌數索參塞省葉說殺辰沈拾若掠略亮兩凉梁糧良諒量勵呂" ++
    "女廬旅濾礪閭驪麗黎力曆歷轢年憐戀撚漣煉璉秊練聯輦蓮連鍊列劣咽烈裂說廉念捻殮簾獵令囹寧嶺" ++
    "怜玲瑩羚聆鈴零靈領例禮醴隸惡了僚寮尿料樂燎療蓼遼龍暈阮劉杻柳流溜琉留硫紐類六戮陸倫崙淪" ++
    "輪律慄栗率隆利吏履易李梨泥理痢罹裏裡里離匿溺吝燐璘藺隣鱗麟林淋臨立笠粒狀炙識什茶刺切度" ++
    "拓糖宅洞暴輻行降見廓兀嗀"),
  (0xFA15, 10,
    "凞猪益礼神祥福靖精羽"),
  (0xFA2A, 68,
    "飯飼館鶴郞隷侮僧免勉勤卑喝嘆器塀墨層屮悔慨憎懲敏既暑梅海渚漢煮爫琢碑社祉祈祐祖祝禍禎穀" ++
    "突節練縉繁署者臭艹艹著褐視謁謹賓贈辶逸難響頻恵𤋮舘"),
  (0xFA70, 106,
    "並况全侀充冀勇勺喝啕喙嗢塚墳奄奔婢嬨廒廙彩徭惘慎愈憎慠懲戴揄搜摒敖晴朗望杖歹殺流滛滋漢" ++
    "瀞煮瞧爵犯猪瑱甆画瘝瘟益盛直睊着磌窱節类絛練缾者荒華蝹襁覆視調諸請謁諾諭謹變贈輸遲醙鉶" ++
    "陼難靖韛響頋頻鬒龜𢡊𢡄𣏕㮝䀘䀹𥉉𥳐𧻓齃龎"),
  (0x2F800, 542,
    "丽丸乁𠄢你侮侻倂偺備僧像㒞𠘺免兔兤具𠔜㒹內再𠕋冗冤仌冬况𩇟凵刃㓟刻剆割剷㔕勇勉勤勺包匆" ++
    "北卉卑博即卽卿卿卿𠨬灰及叟𠭣叫叱吆咞吸呈周咢哶唐啓啣善善喙喫喳嗂圖嘆圗噑噴切壮城埴堍型" ++
    "堲報墬𡓤売壷夆多夢奢𡚨𡛪姬娛娧姘婦㛮㛼嬈嬾嬾𡧈寃寘寧寳𡬘寿将当尢㞁屠屮峀岍𡷤嵃𡷦嵮嵫嵼" ++
    "巡巢㠯巽帨帽幩㡢𢆃㡼庰庳庶廊𪎒廾𢌱𢌱舁弢弢㣇𣊸𦇚形彫㣣徚忍志忹悁㤺㤜悔𢛔惇慈慌慎慌慺憎" ++
    "憲憤憯懞懲懶成戛扝抱拔捐𢬌挽拼捨掃揤𢯱搢揅掩㨮摩摾撝摷㩬敏敬𣀊旣書晉㬙暑㬈㫤冒冕最暜肭" ++
    "䏙朗望朡杞杓𣏃㭉柺枅桒梅𣑭梎栟椔㮝楂榣槪檨𣚣櫛㰘次𣢧歔㱎歲殟殺殻𣪍𡴋𣫺汎𣲼沿泍汧洖派海" ++
    "流浩浸涅𣴞洴港湮㴳滋滇𣻑淹潮𣽞𣾎濆瀹瀞瀛㶖灊災灷炭𠔥煅𤉣熜𤎫爨爵牐𤘈犀犕𤜵𤠔獺王㺬玥㺸" ++
    "㺸瑇瑜瑱璅瓊㼛甤𤰶甾𤲒異𢆟瘐𤾡𤾸𥁄㿼䀈直𥃳𥃲𥄙𥄳眞真真睊䀹瞋䁆䂖𥐝硎碌磌䃣𥘦祖𥚚𥛅福秫" ++
    "䄯穀穊穏𥥼𥪧𥪧竮䈂𥮫篆築䈧𥲀糒䊠糨糣紀𥾆絣䌁緇縂繅䌴𦈨𦉇䍙𦋙罺𦌾羕翺者𦓚𦔣聠𦖨聰𣍟䏕育" ++
    "脃䐋脾媵𦞧𦞵𣎓𣎜舁舄辞䑫芑芋芝劳花芳芽苦𦬼若茝荣莭茣莽菧著荓菊菌菜𦰶𦵫𦳕䔫蓱蓳蔖𧏊蕤𦼬" ++
    "䕝䕡𦾱𧃒䕫虐虜虧虩蚩蚈蜎蛢蝹蜨蝫螆䗗蟡蠁䗹衠衣𧙧裗裞䘵裺㒻𧢮𧥦䚾䛇誠諭變豕𧲨貫賁贛起𧼯" ++
    "𠠄跋趼跰𠣞軔輸𨗒𨗭邔郱鄑𨜮鄛鈸鋗鋘鉼鏹鐕𨯺開䦕閷𨵷䧦雃嶲霣𩅅𩈚䩮䩶韠𩐊䪲𩒖頋頋頩𩖶飢䬳" ++
    "餩馧駂駾䯎𩬰鬒鱀鳽䳎䳭鵧𪃎䳸𪄅𪈎𪊑麻䵖黹黾鼅鼏鼖鼻𪘀")]

/-- Characters outside of these blocks that decompose into one other character, with that character. -/
def singleDecompositions : List (Nat × Nat) := [
  (0x340, 0x300), (0x341, 0x301), (0x343, 0x313), (0x374, 0x2B9), (0x37E, 0x3B), (0x387, 0xB7),
  (0x1F71, 0x3AC), (0x1F73, 0x3AD), (0x1F75, 0x3AE), (0x1F77, 0x3AF), (0x1F79, 0x3CC),
  (0x1F7B, 0x3CD), (0x1F7D, 0x3CE), (0x1FBB, 0x386), (0x1FBE, 0x3B9), (0x1FC9, 0x388),
  (0x1FCB, 0x389), (0x1FD3, 0x390), (0x1FDB, 0x38A), (0x1FE3, 0x3B0), (0x1FEB, 0x38E),
  (0x1FEE, 0x385), (0x1FEF, 0x60), (0x1FF9, 0x38C), (0x1FFB, 0x38F), (0x1FFD, 0xB4),
  (0x2000, 0x2002), (0x2001, 0x2003), (0x2126, 0x3A9), (0x212A, 0x4B), (0x212B, 0xC5),
  (0x2329, 0x3008), (0x232A, 0x3009), (0xFA10, 0x585A), (0xFA12, 0x6674), (0xFA20, 0x8612),
  (0xFA22, 0x8AF8), (0xFA25, 0x9038), (0xFA26, 0x90FD)]

/-- The character that a character decomposes into on its own. -/
def singleDecomposition? (n : Nat) : Option Nat :=
  match blockDecompositions.find? fun (first, size, _) => first ≤ n && n < first + size with
  | some (first, _, targets) => (targets.toList[n - first]?).map Char.toNat
  | none => (singleDecompositions.find? (·.1 == n)).map (·.2)

/-- The nonzero canonical combining classes, each with the runs of its characters. -/
def combiningClassRuns : List (Nat × List Nat) := [
  (1, [820, 5, 6555, 1, 13, 7, 1001, 2, 4, 3, 10, 2, 3, 2, 59725, 1, 24758, 5, 20905, 1, 5320, 3]),
  (6, [94192, 2]),
  (7, [
    2364, 1, 127, 1, 127, 1, 127, 1, 127, 1, 255, 1, 127, 1, 890, 1, 2812, 1, 177, 1, 80, 1, 36219,
    1, 26374, 1, 184, 1, 86, 1, 107, 1, 178, 1, 81, 2, 265, 1, 124, 1, 252, 1, 246, 1, 386, 1, 264,
    1, 1022, 1, 52231, 1]),
  (8, [12441, 2]),
  (9, [
    2381, 1, 127, 1, 127, 1, 127, 1, 127, 1, 127, 1, 127, 1, 127, 1, 109, 2, 16, 1, 124, 1, 111, 1,
    127, 1, 201, 1, 180, 2, 1753, 2, 30, 1, 157, 1, 653, 1, 227, 1, 101, 2, 70, 2, 4491, 1, 31366,
    1, 37, 1, 151, 1, 142, 1, 108, 1, 309, 1, 246, 1, 24145, 1, 1542, 1, 41, 1, 14, 1, 57, 1, 121,
    2, 139, 1, 116, 1, 180, 1, 98, 1, 244, 1, 127, 1, 252, 1, 127, 1, 118, 1, 116, 1, 269, 1, 259,
    2, 161, 1, 83, 1, 18, 1, 81, 1, 421, 1, 260, 2, 81, 1, 425, 2]),
  (10, [1456, 1]), (11, [1457, 1]), (12, [1458, 1]), (13, [1459, 1]), (14, [1460, 1]),
  (15, [1461, 1]), (16, [1462, 1]), (17, [1463, 1]), (18, [1464, 1, 14, 1]), (19, [1465, 2]),
  (20, [1467, 1]), (21, [1468, 1]), (22, [1469, 1]), (23, [1471, 1]), (24, [1473, 1]),
  (25, [1474, 1]), (26, [64286, 1]), (27, [1611, 1, 676, 1]), (28, [1612, 1, 676, 1]),
  (29, [1613, 1, 676, 1]), (30, [1560, 1, 53, 1]), (31, [1561, 1, 53, 1]), (32, [1562, 1, 53, 1]),
  (33, [1617, 1]), (34, [1618, 1]), (35, [1648, 1]), (36, [1809, 1]), (84, [3157, 1]),
  (91, [3158, 1]), (103, [3640, 2]), (107, [3656, 4]), (118, [3768, 2]), (122, [3784, 4]),
  (129, [3953, 1]), (130, [3954, 1, 7, 4, 2, 1]), (132, [3956, 1]), (202, [801, 2, 4, 2, 6823, 1]),
  (214, [7630, 1]), (216, [795, 1, 3101, 1, 115243, 2, 7, 5]), (218, [7674, 1, 4655, 1]),
  (220, [
    790, 4, 2, 5, 2, 4, 2, 11, 5, 4, 10, 3, 3, 2, 4, 4, 2, 2, 566, 1, 4, 1, 4, 1, 6, 6, 2, 1, 26, 1,
    143, 2, 5, 1, 2, 1, 131, 1, 6, 1, 2, 1, 67, 1, 2, 1, 2, 3, 1, 2, 1, 1, 3, 1, 1, 1, 1, 1, 1, 1,
    169, 1, 10, 1, 91, 3, 61, 3, 51, 5, 15, 1, 2, 1, 2, 1, 3, 3, 6, 1, 2, 2, 87, 1, 1477, 2, 27, 1,
    1, 1, 142, 1, 198, 1, 2221, 1, 220, 1, 102, 1, 53, 6, 2, 1, 1, 2, 2, 2, 5, 1, 161, 1, 360, 5, 2,
    4, 13, 1, 212, 1, 7, 1, 4, 1, 41, 1, 3, 1, 1, 1, 744, 1, 3, 4, 34875, 3, 390, 1, 21362, 7, 975,
    1, 226, 1, 1836, 1, 44, 1, 171, 1, 1046, 3, 70, 2, 3, 1, 1, 4, 50, 1, 1, 1, 49653, 8, 7, 2,
    4962, 1, 993, 7]),
  (222, [1434, 1, 18, 1, 5003, 1, 5875, 1]), (224, [12334, 2]), (226, [119149, 1]),
  (228, [1454, 1, 4858, 1, 1357, 2, 4658, 1]),
  (230, [
    768, 21, 40, 8, 1, 1, 3, 3, 3, 3, 4, 1, 3, 1, 7, 13, 275, 5, 266, 4, 1, 3, 2, 6, 6, 2, 1, 2, 2,
    1, 20, 1, 75, 8, 59, 2, 2, 5, 1, 2, 119, 7, 2, 4, 1, 1, 2, 2, 2, 2, 67, 1, 1, 2, 1, 2, 3, 1, 2,
    1, 1, 3, 1, 1, 1, 1, 1, 1, 1, 2, 160, 7, 1, 1, 34, 4, 1, 9, 1, 3, 1, 5, 106, 1, 3, 4, 42, 5, 5,
    14, 2, 2, 1, 2, 1, 3, 6, 3, 1, 2, 2, 5, 81, 1, 1, 2, 169, 1, 1411, 2, 2, 2, 981, 3, 1149, 1,
    348, 1, 220, 1, 93, 8, 51, 5, 6, 2, 4, 2, 2, 5, 1, 4, 156, 1, 1, 7, 348, 3, 7, 2, 4, 1, 19, 1,
    3, 2, 198, 2, 1, 7, 1, 2, 4, 37, 5, 1, 2, 1, 721, 2, 2, 4, 3, 2, 4, 1, 5, 1, 1, 1, 6, 1, 3070,
    3, 238, 32, 30831, 1, 4, 10, 32, 2, 80, 2, 494, 18, 446, 1, 1, 2, 3, 2, 5, 2, 1, 1, 21342, 7, 7,
    2, 1350, 5, 1684, 1, 40, 1, 172, 1, 574, 4, 387, 2, 155, 3, 1, 1, 53, 1, 1, 1, 379, 3, 611, 7,
    3, 5, 233, 1, 22225, 7, 26190, 5, 32, 4, 148, 3, 3515, 7, 1, 17, 2, 7, 1, 2, 1, 5, 100, 1, 160,
    7, 375, 1, 61, 4, 511, 1, 1108, 6]),
  (232, [789, 1, 4, 1, 61, 1, 6813, 1, 4661, 1, 111807, 2]), (233, [860, 1, 2, 1, 2, 1, 6809, 1]),
  (234, [861, 2, 1, 2, 6763, 1]), (240, [837, 1])]

end WatScript.Text
