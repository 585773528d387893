import Mathlib.Data.List.GetD
import TinyPointerTrees.Library.Reciprocals
import TinyPointerTrees.TinyPtr.Sizing

/-!
# The table of primes

`util/primes.hpp`: prime numbers, with a factor and a shift by which one divides by them
without a division, and the search for the smallest of them that is not less than a
number. `Indexer` is the `BucketIndexer` that reduces hash values with them.

* `div_mod_exact` — for every number of the table, and every 64-bit argument, the
  multiplication and the shift give the quotient, and `mod` the remainder.
* `pick_least` — the search finds the smallest number of the table that is large enough,
  and the last one if there is none.
* `PrimeIndexer.lawful_iff` — the indexer stays below its number of buckets exactly for requests up
  to the last number of the table that fits into 32 bits.
-/

namespace TinyPointerTrees

/-- `Prime`, and `Number`. -/
structure Prime where
  /-- `value`. -/
  value : UInt64
  /-- `magic`. -/
  magic : UInt64
  /-- `shift`. -/
  shift : UInt64
  deriving DecidableEq

namespace Prime

/-- `Prime()`, which represents the value 0. -/
instance : Inhabited Prime := ⟨⟨0, 0, 0⟩⟩

/-- `div`; the product has 128 bits. -/
def div (p : Prime) (x : UInt64) : UInt64 :=
  UInt64.ofNat (x.toNat * p.magic.toNat / 2 ^ 64) >>> p.shift

/-- `mod`. -/
def mod (p : Prime) (x : UInt64) : UInt64 := x - p.div x * p.value

/-- `primes`. -/
@[irreducible] def primes : List Prime :=
  [⟨3, 12297829382473034411, 1⟩, ⟨5, 14757395258967641293, 2⟩, ⟨11, 3353953467947191203, 1⟩,
    ⟨13, 5675921253449092805, 2⟩,
   ⟨17, 17361641481138401521, 4⟩, ⟨19, 15534100272597517151, 4⟩, ⟨37, 15953940820505558155, 5⟩,
   ⟨41, 14397458789236723213, 5⟩, ⟨43, 13727809543225712831, 5⟩, ⟨59, 10005013734893316131, 5⟩,
   ⟨67, 17620770458468825425, 6⟩, ⟨73, 8086243977516515777, 5⟩, ⟨79, 7472098865300071541, 5⟩,
   ⟨83, 3555998857582564167, 4⟩, ⟨109, 10831115786398268839, 6⟩, ⟨113, 10447713457676206225, 6⟩,
   ⟨131, 281629680514649643, 1⟩, ⟨139, 4246732448623781667, 5⟩, ⟨149, 1980858424022502187, 4⟩,
   ⟨157, 3759845925851628355, 5⟩, ⟨163, 14485786757268850349, 7⟩, ⟨173, 13648458042975853219, 7⟩,
   ⟨191, 6181107961871263369, 6⟩, ⟨211, 5595220951267352149, 6⟩, ⟨227, 10401688288259130427, 7⟩,
   ⟨241, 1224680104478642431, 4⟩, ⟨257, 18374966859414961921, 8⟩, ⟨269, 17555265735574889271, 8⟩,
   ⟨283, 8343403679981705325, 7⟩, ⟨307, 15382301247132394833, 8⟩, ⟨331, 14266968226192281613, 8⟩,
   ⟨349, 13531136054067751329, 8⟩, ⟨373, 12660499954074115855, 8⟩, ⟨397, 185861401246443845, 2⟩,
   ⟨419, 5635282199128454909, 7⟩, ⟨439, 10757099049816959485, 8⟩, ⟨461, 5121872541073367911, 7⟩,
   ⟨499, 591478767894494641, 4⟩, ⟨523, 18058762840801702539, 9⟩, ⟨557, 16956432613535530391, 9⟩,
   ⟨587, 2011229336826935781, 6⟩, ⟨617, 7653754429286296943, 8⟩, ⟨647, 14597732559102458157, 9⟩,
   ⟨691, 13668209791229074425, 9⟩, ⟨727, 1623922449404967405, 6⟩, ⟨769, 12281837406683082481, 9⟩,
   ⟨809, 729661075845124415, 5⟩, ⟨877, 673085302575491051, 5⟩, ⟨941, 2509227674213414035, 7⟩,
   ⟨997, 4736576211504157687, 8⟩, ⟨1049, 18007117189207417403, 10⟩, ⟨1103, 4281383937325154319, 8⟩,
   ⟨1163, 8121008568993370961, 9⟩, ⟨1223, 15445188823776435695, 10⟩, ⟨1283, 7361444244535690123, 9⟩,
   ⟨1367, 6909095073693701849, 9⟩, ⟨1439, 13126800508324239649, 10⟩, ⟨1523, 12402801005567026169,
   10⟩, ⟨1609, 2934969846407486149, 8⟩, ⟨1693, 5578696376691843135, 9⟩, ⟨1783, 5297102055939029965,
   9⟩, ⟨1871, 10095919792345580361, 10⟩, ⟨1987, 9506525380713930979, 10⟩,
   ⟨2087, 1131376732838918355, 7⟩, ⟨2203, 1071803559434781029, 7⟩,
   ⟨2333, 2024160515589217837, 8⟩, ⟨2459, 15363534714500675767, 11⟩,
   ⟨2591, 14580830514456642883, 11⟩, ⟨2719, 6947210714041405243, 10⟩, ⟨2857, 826455457275051665, 7⟩,
   ⟨2999, 12597176346434532081, 11⟩, ⟨3163, 11944018926006058081, 11⟩, ⟨3323, 2842230805217962813,
   9⟩, ⟨3491, 10821808038658596881, 11⟩, ⟨3671, 10291182746651365217, 11⟩,
   ⟨3863, 9779687254195485817, 11⟩, ⟨4091, 9234644796616270279, 11⟩,
   ⟨4297, 17583864027441080619, 12⟩, ⟨4513, 16742269826260652209, 12⟩,
   ⟨4751, 15903570559022168685, 12⟩, ⟨4987, 1893870656855682861, 9⟩, ⟨5237, 7213849887904747319,
   11⟩, ⟨5501, 6867648039076015581, 11⟩, ⟨5791, 3261865987131511113, 10⟩,
   ⟨6079, 3107331128718305783, 10⟩, ⟨6397, 11811452825686153419, 12⟩,
   ⟨6733, 11222020455356352803, 12⟩, ⟨7079, 5336761105093538877, 11⟩,
   ⟨7433, 5082595434273800849, 11⟩, ⟨7877, 9592213244371502275, 12⟩, ⟨8269, 18274970063106620733,
   13⟩, ⟨8681, 17407640531255459837, 13⟩, ⟨9127, 16556998734724295699, 13⟩,
   ⟨9587, 15762566752042207869, 13⟩, ⟨10067, 3752749762884390753, 11⟩,
   ⟨10589, 14271010241933010373, 13⟩, ⟨11117, 13593211068798115215, 13⟩,
   ⟨11677, 12941314331748620951, 13⟩, ⟨12263, 12322900387493162101, 13⟩, ⟨12893, 732547348618575229,
   9⟩, ⟨13537, 2790790563858843297, 11⟩, ⟨14221, 5313118889382907209, 12⟩,
   ⟨14947, 5055052099144599145, 12⟩, ⟨15727, 4804340543391258563, 12⟩,
   ⟨16519, 4573997440881065647, 12⟩, ⟨17351, 17418676439609088449, 14⟩,
   ⟨18217, 2073828394519249147, 11⟩, ⟨19139, 3947848044616454539, 12⟩, ⟨20101, 15035642749298905213,
   14⟩, ⟨21107, 111867306648733719, 7⟩, ⟨22189, 3405194633643441499, 12⟩,
   ⟨23297, 6486488708925125417, 13⟩, ⟨24473, 1543698437582526119, 11⟩,
   ⟨25717, 2938051239488055505, 12⟩, ⟨27011, 5594599513229004733, 13⟩,
   ⟨28387, 2661706546162480129, 12⟩, ⟨29819, 10135532878488792169, 14⟩, ⟨31321, 9649482931696219587,
   14⟩, ⟨32887, 9189997716534110551, 14⟩, ⟨34537, 17501893905299087569, 15⟩,
   ⟨36263, 4167215273193851773, 13⟩, ⟨38083, 3968062585716163297, 13⟩,
   ⟨39989, 15115729570814838765, 15⟩, ⟨41999, 14392316717238853005, 15⟩,
   ⟨44101, 6853165572292176905, 14⟩, ⟨46307, 6526690455085781711, 14⟩, ⟨48623, 6215812576427972229,
   14⟩, ⟨51059, 11838518376923061309, 15⟩, ⟨53611, 1409372399804411845, 12⟩,
   ⟨56333, 2682543579284409615, 13⟩, ⟨59149, 10219325936318696637, 15⟩,
   ⟨62119, 9730725056863674357, 15⟩, ⟨65239, 9265361360647995637, 15⟩,
   ⟨68501, 4412073617956778641, 14⟩, ⟨71933, 16806275556623930251, 16⟩, ⟨75533, 8002633415954808989,
   15⟩, ⟨79309, 15243236197841722563, 16⟩, ⟨83273, 7258810296342326893, 15⟩,
   ⟨87481, 3454823960673258121, 14⟩, ⟨91867, 13159522131065879747, 16⟩,
   ⟨96461, 6266396883790491363, 15⟩, ⟨101287, 11935646426635492953, 16⟩,
   ⟨106357, 11366678447254333751, 16⟩, ⟨111697, 5411630659796723165, 15⟩,
   ⟨117281, 10307942630218272139, 16⟩, ⟨123191, 76667394255581093, 9⟩,
   ⟨129379, 9344065262636356555, 16⟩, ⟨135851, 556181873713953695, 12⟩,
   ⟨142657, 2118588326571127205, 14⟩, ⟨149791, 16141501420173831201, 17⟩,
   ⟨157279, 3843252499108683215, 15⟩, ⟨165161, 7319680915074558611, 16⟩,
   ⟨173431, 13941288692501677033, 17⟩, ⟨182101, 13277530816575737363, 17⟩,
   ⟨191227, 197560657558593513, 11⟩, ⟨200789, 6020876739336463525, 16⟩,
   ⟨210827, 11468415521869866523, 17⟩, ⟨221399, 10920788437297631649, 17⟩,
   ⟨232499, 10399406617788714573, 17⟩, ⟨244157, 9902856109918037777, 17⟩,
   ⟨256369, 9431138863237202429, 17⟩, ⟨269189, 8981985293712812743, 17⟩,
   ⟨282661, 8553891903125151151, 17⟩, ⟨296797, 2036620686217564825, 15⟩,
   ⟨311677, 7757555543813814781, 17⟩, ⟨327263, 14776199198988326511, 18⟩,
   ⟨343627, 14072535855618204329, 18⟩, ⟨360817, 13402093799511987237, 18⟩,
   ⟨378869, 6381761609498951747, 17⟩, ⟨397811, 6077890353030103113, 17⟩,
   ⟨417719, 1447056298150944983, 15⟩, ⟨438611, 5512519383301509423, 17⟩,
   ⟨460543, 5250001930827866995, 17⟩, ⟨483611, 2499789747575280907, 16⟩,
   ⟨507803, 9522793836307616731, 18⟩, ⟨533213, 18137979675883808905, 19⟩,
   ⟨559877, 17274162998153225437, 19⟩, ⟨587891, 2056377491090404811, 16⟩,
   ⟨617311, 7833496047306004103, 18⟩, ⟨648181, 3730210603564835053, 17⟩,
   ⟨680597, 14210180998325049035, 19⟩, ⟨714673, 13532631786729082249, 19⟩,
   ⟨750413, 12888111689052606229, 19⟩, ⟨787981, 12273654513138049519, 19⟩,
   ⟨827389, 11689068330515674487, 19⟩, ⟨868771, 5566142606577011317, 18⟩,
   ⟨912211, 10602159540848590291, 19⟩, ⟨957821, 1262162574859633663, 16⟩,
   ⟨1005761, 4808004365309965985, 18⟩, ⟨1056049, 2289525996643392825, 17⟩,
   ⟨1108867, 4360940742630555963, 18⟩, ⟨1164323, 16612927094830272009, 20⟩,
   ⟨1222561, 7910776277762036739, 19⟩, ⟨1283701, 3767001255322319371, 18⟩,
   ⟨1347893, 7175203489384567913, 19⟩, ⟨1415303, 13666906036258007505, 20⟩,
   ⟨1486081, 6507994218967225473, 19⟩, ⟨1560407, 6198002544795706119, 19⟩,
   ⟨1638431, 11805692832859038187, 20⟩, ⟨1720361, 11243461758220551847, 20⟩,
   ⟨1806379, 5354029556874295703, 19⟩, ⟨1896761, 10197812541397712625, 20⟩,
   ⟨1991603, 4856091578952749819, 19⟩, ⟨2091191, 4624831761860601637, 19⟩,
   ⟨2195749, 8809209574424976077, 20⟩, ⟨2305549, 16779355471372819919, 21⟩,
   ⟨2420827, 15980334913510190357, 21⟩, ⟨2541899, 3715620866816223, 9⟩,
   ⟨2668999, 14494432642225843319, 21⟩, ⟨2802451, 6902105733100798835, 20⟩,
   ⟨2942609, 3286677420247485615, 19⟩, ⟨3089753, 3130155244421490455, 19⟩,
   ⟨3244247, 11924377591369625553, 21⟩, ⟨3406489, 354889101246071593, 16⟩,
   ⟨3576847, 1351945799878640797, 18⟩, ⟨3755729, 643776917671444971, 17⟩,
   ⟨3943523, 9809915202134774817, 21⟩, ⟨4140757, 4671322928110504141, 20⟩,
   ⟨4347799, 2224437366335709953, 19⟩, ⟨4565189, 16948094034077508551, 22⟩,
   ⟨4793471, 4035241501165661959, 20⟩, ⟨5033143, 240193020467455261, 16⟩,
   ⟨5284819, 14640284266185136555, 22⟩, ⟨5549087, 1742882488041191893, 19⟩,
   ⟨5826577, 13279023422386122621, 22⟩, ⟨6117919, 6323330895304127693, 21⟩,
   ⟨6423821, 3011107114260199155, 20⟩, ⟨6745021, 5735434512015327097, 21⟩,
   ⟨7082311, 2731144271105020211, 20⟩, ⟨7436459, 5202156863591681685, 21⟩,
   ⟨7808329, 9908810509308235755, 22⟩, ⟨8198783, 4718459584510058821, 21⟩,
   ⟨8608727, 17975074004631873489, 23⟩, ⟨9039167, 2139888898372390597, 20⟩,
   ⟨9491137, 2037986925468894485, 20⟩, ⟨9965699, 15527511407947654687, 23⟩,
   ⟨10463987, 7394050896215397361, 22⟩, ⟨10987189, 7041951536042227651, 22⟩,
   ⟨11536549, 3353310095390582885, 21⟩, ⟨12113417, 6387235943032116139, 22⟩,
   ⟨12719107, 12166145383529876301, 23⟩, ⟨13355101, 11586771594664281039, 23⟩,
   ⟨14022871, 5517504400870283067, 22⟩, ⟨14724029, 10509521878194652725, 23⟩,
   ⟨15460229, 10009069394164377149, 23⟩, ⟨16233247, 9532443195786556711, 23⟩,
   ⟨17044913, 283703605788924631, 18⟩, ⟨17897161, 2161550998377236121, 21⟩,
   ⟨18792019, 4117240007863778085, 22⟩, ⟨19731653, 1960587195997625419, 21⟩,
   ⟨20718241, 3734450837565615111, 22⟩, ⟨21754153, 3556619853475162521, 22⟩,
   ⟨22841893, 211703262880117541, 18⟩, ⟨23984003, 403244052167481525, 19⟩,
   ⟨25183231, 6144664475764548813, 23⟩, ⟨26442397, 11704120841289277547, 24⟩,
   ⟨27764563, 5573381612765615449, 23⟩, ⟨29152847, 5307972319501849489, 23⟩,
   ⟨30610513, 5055207827149859735, 23⟩, ⟨32141063, 9628959994924407719, 24⟩,
   ⟨33748133, 18340867023449567935, 25⟩, ⟨35435539, 8733746361847214141, 24⟩,
   ⟨37207351, 16635691684761168229, 25⟩, ⟨39067739, 1980438449620446865, 22⟩,
   ⟨41021129, 15089053732350714615, 25⟩, ⟨43072187, 3592631711751078123, 23⟩,
   ⟨45225799, 3421553810705976347, 23⟩, ⟨47487101, 13034487399908664407, 25⟩,
   ⟨49861457, 1551724660900628459, 22⟩, ⟨52354573, 5911327169478491759, 24⟩,
   ⟨54972419, 11259646762910144767, 25⟩, ⟨57721051, 5361735527326851147, 24⟩,
   ⟨60607117, 5106413654708985229, 24⟩, ⟨63637523, 1215811816800856111, 22⟩,
   ⟨66819437, 2315830720194073685, 23⟩, ⟨70160413, 17644423491141368779, 26⟩,
   ⟨73668433, 16804212996974976717, 26⟩, ⟨77351861, 16004011064263602849, 26⟩,
   ⟨81219493, 15241907989814468245, 26⟩, ⟨85280491, 14516098872899081631, 26⟩,
   ⟨89544529, 6912426996435372813, 25⟩, ⟨94021813, 6583259776565786255, 25⟩,
   ⟨98722909, 12539541752009964323, 26⟩, ⟨103659103, 1492801890352770411, 23⟩,
   ⟨108842081, 11373726300633486371, 26⟩, ⟨114284237, 2708028840594570087, 24⟩,
   ⟨119998469, 10316298612821304203, 26⟩, ⟨125998403, 9825045475261938637, 26⟩,
   ⟨132298343, 9357184762966987991, 26⟩, ⟨138913259, 8911604609934176801, 26⟩,
   ⟨145858943, 8487241260793863527, 26⟩, ⟨153151891, 2020771717545068175, 24⟩,
   ⟨160809487, 15396355804373410817, 27⟩, ⟨168849973, 14663194992460914103, 27⟩,
   ⟨177292481, 6982473437694068227, 26⟩, ⟨186157109, 13299949122924768615, 27⟩,
   ⟨195464981, 12666617139828031651, 27⟩, ⟨205238239, 12063444369013322853, 27⟩,
   ⟨215500157, 11488994314610919517, 27⟩, ⟨226275163, 1367737429588527437, 24⟩,
   ⟨237588937, 10420855911194049199, 27⟩, ⟨249468431, 9924622801555041447, 27⟩,
   ⟨261941873, 2363005244460056745, 25⟩, ⟨275038969, 9001924663885576701, 27⟩,
   ⟨288790927, 1071657662643068661, 24⟩, ⟨303230491, 16330020575475442869, 28⟩,
   ⟨318392033, 1944049961962113975, 25⟩, ⟨334311667, 7405903900358824599, 27⟩,
   ⟨351027263, 14106483111374517653, 28⟩, ⟨368578633, 3358686392668291965, 26⟩,
   ⟨387007589, 6397497488274733935, 27⟩, ⟨406357967, 12185709544957736979, 28⟩,
   ⟨426675871, 11605437508186445115, 28⟩, ⟨448009669, 11052797517058769327, 28⟩,
   ⟨470410163, 10526473589690537999, 28⟩, ⟨493930721, 1253151491345868599, 25⟩,
   ⟨518627269, 2386955166611920429, 26⟩, ⟨544558643, 18186324726615425695, 29⟩,
   ⟨571786583, 17320309025654493539, 29⟩, ⟨600375911, 8247766218490936589, 28⟩,
   ⟨630394717, 15710030631939833023, 29⟩, ⟨661914481, 14961933298877385037, 29⟩,
   ⟨695010221, 3562364989407487505, 27⟩, ⟨729760741, 3392728519731045041, 27⟩,
   ⟨766248787, 12924679924202010123, 29⟩, ⟨804561257, 6154609253253566869, 28⟩,
   ⟨844789403, 11723064090427566833, 29⟩, ⟨887028911, 11164822466855358449, 29⟩,
   ⟨931380407, 166143182471598347, 23⟩, ⟨977949439, 10126822430012194321, 29⟩,
   ⟨1026846941, 2411148127061285709, 27⟩, ⟨1078189297, 18370652244163470303, 30⟩,
   ⟨1132098761, 17495859293291890105, 30⟩, ⟨1188703709, 16662722996993765079, 30⟩,
   ⟨1248138943, 991828711240989037, 26⟩, ⟨1310545897, 7556790141385671897, 29⟩,
   ⟨1376073217, 14393885720519829287, 30⟩, ⟨1444876883, 13708462542109952491, 30⟩,
   ⟨1517120861, 13055677459678727863, 30⟩, ⟨1592977037, 12433977495286446115, 30⟩,
   ⟨1672625909, 1480235398273243267, 27⟩, ⟨1756257211, 11277983944782268227, 30⟩,
   ⟨1844070071, 2685234273368086727, 28⟩, ⟨1936273601, 10229463758807960115, 30⟩,
   ⟨2033087339, 2435586539817373335, 28⟩, ⟨2134741709, 9278424900333497161, 30⟩,
   ⟨2241478829, 8836595006968091421, 30⟩, ⟨2353552771, 16831609533148712559, 31⟩,
   ⟨2471230409, 8015052160426083685, 30⟩, ⟨2594791931, 7633383005369799109, 30⟩,
   ⟨2724531541, 14539777081307853649, 31⟩, ⟨2860758139, 13847406642694924025, 31⟩,
   ⟨3003796087, 1648500768268535633, 28⟩, ⟨3153985903, 12560005807081176671, 31⟩,
   ⟨3311685211, 1495238780755457829, 28⟩, ⟨3477269557, 2848073798117412443, 29⟩,
   ⟨3651133121, 678112793075221469, 27⟩, ⟨3833689799, 1291643407985999417, 28⟩,
   ⟨4025374307, 9841092588146280131, 31⟩, ⟨4226643191, 2343117189397746397, 29⟩,
   ⟨4437975361, 17852321400993992043, 32⟩, ⟨4659874133, 17002210843677381703, 32⟩,
   ⟨4892867927, 16192581466804905563, 32⟩, ⟨5137511359, 7710753025924778067, 31⟩,
   ⟨5394386939, 7343574294000449121, 31⟩, ⟨5664106297, 1748470066589049079, 29⟩,
   ⟨5947311613, 3330419173811346145, 30⟩, ⟨6244677209, 6343655553571170791, 31⟩,
   ⟨6556911073, 377598544650989893, 27⟩, ⟨6884756651, 1438470641201903855, 29⟩,
   ⟨7228994671, 5479888014864490249, 31⟩, ⟨7590444419, 10437881913204526107, 32⟩,
   ⟨7969966657, 9940839896071391757, 32⟩, ⟨8368465003, 9467466552810095751, 32⟩,
   ⟨8786888267, 18033269595975923793, 33⟩, ⟨9226232699, 8587271218820614487, 32⟩,
   ⟨9687544343, 16356707068187576831, 33⟩, ⟨10171921577, 15577816229611762685, 33⟩,
   ⟨10680517669, 14836015438506801387, 33⟩, ⟨11214543667, 14129538368538654083, 33⟩,
   ⟨11775270853, 3364175801275912171, 31⟩, ⟨12364034467, 12815907740426770131, 33⟩,
   ⟨12982236217, 6102813197199147651, 32⟩, ⟨13631348041, 1453050759836151439, 30⟩,
   ⟨14312915467, 11070862913559934825, 33⟩, ⟨15028561283, 10543678935372956631, 33⟩,
   ⟨15779989387, 10041598960710928087, 33⟩, ⟨16568988859, 9563427580099906155, 33⟩,
   ⟨17397438323, 18216052511483149943, 34⟩, ⟨18267310249, 8674310715076566125, 33⟩,
   ⟨19180675771, 2065312073989917443, 31⟩, ⟨20139709561, 15735711038790255491, 34⟩,
   ⟨21146695051, 936649466065357335, 30⟩, ⟨22204029811, 3568188440956526943, 32⟩,
   ⟨23314231351, 6796549396930134083, 33⟩, ⟨24479942941, 12945808363232710297, 34⟩,
   ⟨25703940113, 12329341286349166121, 34⟩, ⟨26989137127, 11742229792890160463, 34⟩,
   ⟨28338593999, 11183075987052866009, 34⟩, ⟨29755523717, 10650548552637237737, 34⟩,
   ⟨31243299917, 10143379569346319199, 34⟩, ⟨32805464957, 301886296300453383, 29⟩,
   ⟨34445738207, 18400688535260071187, 35⟩, ⟨36168025123, 8762232634469334069, 34⟩,
   ⟨37976426413, 16689966907922255975, 35⟩, ⟨39875247739, 15895206576840941963, 35⟩,
   ⟨41869010171, 15138291961655333511, 35⟩, ⟨43962460741, 7208710447854895029, 34⟩,
   ⟨46160583811, 6865438516865931117, 34⟩, ⟨48468613051, 6538512866534744747, 34⟩,
   ⟨50892043747, 12454310211337850455, 35⟩, ⟨53436645961, 2965311953601575993, 33⟩,
   ⟨56108478299, 353013327558361135, 30⟩, ⟨58913902231, 10758501408188866449, 35⟩,
   ⟨61859597357, 10246191814929286119, 35⟩, ⟨64952577353, 1219784737465925721, 32⟩,
   ⟨68200206227, 2323399499718769013, 33⟩, ⟨71610216569, 2212761427356502081, 33⟩,
   ⟨75190727407, 16859134682479683775, 36⟩, ⟨78950263811, 16056318738375259177, 36⟩,
   ⟨82897777007, 15291732130780627285, 36⟩, ⟨87042665867, 14563554408652673137, 36⟩,
   ⟨91394799161, 6935025908832903385, 35⟩, ⟨95964539119, 13209573159688603261, 36⟩,
   ⟨100762766171, 3145136463594489011, 34⟩, ⟨105800904527, 5990736118445611451, 35⟩,
   ⟨111090949819, 11410925933153033577, 36⟩, ⟨116645497313, 10867548507480633553, 36⟩,
   ⟨122477772247, 2587511547956163001, 34⟩, ⟨128601660959, 9857186841718740025, 36⟩,
   ⟨135031744009, 9387796991970563815, 36⟩, ⟨141783331211, 17881518079748447215, 37⟩,
   ⟨148872497797, 17030017215896735325, 37⟩, ⟨156316122691, 8109532007354575905, 36⟩,
   ⟨164131928839, 3861681907947633321, 35⟩, ⟨172338525313, 14711169170397987639, 37⟩,
   ⟨180955451639, 7005318650234144005, 36⟩, ⟨190003224311, 3335866022340022861, 35⟩,
   ⟨199503385547, 794253814761447975, 33⟩, ⟨209478554867, 12102915270091234561, 37⟩,
   ⟨219952482619, 1440823246382769897, 34⟩, ⟨230950106813, 5488850460912081057, 36⟩,
   ⟨242497612171, 10454953258132132847, 37⟩, ⟨254622492793, 9957098340552254979, 37⟩,
   ⟨267353617439, 9482950800300724571, 37⟩, ⟨280721298331, 18062763427854137777, 38⟩,
   ⟨294757363253, 2150328979466685855, 35⟩, ⟨309495231443, 511983090303967127, 33⟩,
   ⟨324969993053, 7801647089437490025, 37⟩, ⟨341218492723, 7430140084800760217, 37⟩,
   ⟨358279417381, 7076323889854882177, 37⟩, ⟨376193388269, 13478712170473192985, 38⟩,
   ⟨395003057699, 3209217183311537233, 36⟩, ⟨414753210583, 12225589269786240019, 38⟩,
   ⟨435490871201, 5821709174900925211, 37⟩, ⟨457265414773, 11088969856664348349, 38⟩,
   ⟨480128685587, 5280461835678132219, 37⟩, ⟨504135119923, 5029011271509298283, 37⟩,
   ⟨529341875947, 2394767272021290201, 36⟩, ⟨555808969759, 18245845881586049375, 39⟩,
   ⟨583599418277, 17376996076806244003, 39⟩, ⟨612779389213, 16549520072550591999, 39⟩,
   ⟨643418358719, 7880723843516254105, 38⟩, ⟨675589276709, 1876362819734705443, 36⟩,
   ⟨709368740617, 14296097672707064803, 39⟩, ⟨744837177653, 13615331116769731263, 39⟩,
   ⟨782079036559, 3241745503896006575, 37⟩, ⟨821182988387, 6174753340753922271, 38⟩,
   ⟨862242137849, 2940358733546901847, 37⟩, ⟨905354244917, 5600683300908115055, 38⟩,
   ⟨950621957303, 5333984095316578539, 38⟩, ⟨998153055223, 10159969704806606005, 39⟩,
   ⟨1048060707989, 2419040405895140425, 37⟩, ⟨1100463743389, 9215392022453072055, 39⟩,
   ⟨1155486930613, 17553127660986700359, 40⟩, ⟨1213261277161, 16717264438795890829, 40⟩,
   ⟨1273924341023, 7960602113687645885, 39⟩, ⟨1337620558103, 3790762911198071633, 38⟩,
   ⟨1404501586093, 14441001565596421675, 40⟩, ⟨1474726665421, 13753334824159781815, 40⟩,
   ⟨1548462998851, 13098414116902856733, 40⟩, ⟨1625886148903, 6237340055248147143, 39⟩,
   ⟨1707180456391, 11880647723983982373, 40⟩, ⟨1792539479293, 2828725648437504227, 38⟩,
   ⟨1882166453477, 5388048853538744859, 39⟩, ⟨1976274776167, 10262950197132788655, 40⟩,
   ⟨2075088514987, 9774238282928733535, 40⟩, ⟨2178842940751, 9308798364631441885, 40⟩,
   ⟨2287785087839, 8865522251834443073, 40⟩, ⟨2402174342237, 16886709051070694853, 41⟩,
   ⟨2522283059347, 4020645012162638243, 39⟩, ⟨2648397212317, 59831026966646059, 33⟩,
   ⟨2780817072931, 14587374193782458005, 41⟩, ⟨2919857926577, 13892737327414481677, 41⟩,
   ⟨3065850822911, 13231178407039185457, 41⟩, ⟨3219143364077, 12601122292338221701, 41⟩,
   ⟨3380100532351, 1500133606199607175, 38⟩, ⟨3549105559033, 5714794690180439967, 40⟩,
   ⟨3726560837047, 2721330804802297305, 39⟩, ⟨3912888879007, 5183487247099864809, 40⟩,
   ⟨4108533323047, 9873309041879540653, 41⟩, ⟨4313959989413, 9403151467991011841, 41⟩,
   ⟨4529657988913, 17910764700819207529, 42⟩, ⟨4756140888377, 17057871143571528337, 42⟩,
   ⟨4993947932801, 8122795782644732113, 41⟩, ⟨5243645329459, 15471991966889383297, 42⟩,
   ⟨5505827595941, 1841903805579041879, 39⟩, ⟨5781118975739, 14033552804409441543, 42⟩,
   ⟨6070174924579, 6682644192517521899, 41⟩, ⟨6373683670811, 12728846080979664861, 42⟩,
   ⟨6692367854377, 12122710553267865813, 42⟩, ⟨7026986247119, 11545438622121836423, 42⟩,
   ⟨7378335559501, 5497827915276701915, 41⟩, ⟨7747252337609, 5236026585887956299, 41⟩,
   ⟨8134614954497, 9973383973110660139, 42⟩, ⟨8541345702271, 9498460926717399687, 42⟩,
   ⟨8968412987389, 9046153263535892081, 42⟩, ⟨9416833636757, 17230768121023400007, 43⟩,
   ⟨9887675318611, 16410255353328815421, 43⟩, ⟨10382059084633, 3907203655520063397, 41⟩,
   ⟨10901162038883, 14884585354337090951, 43⟩, ⟨11446220140841, 14175795575541981435, 43⟩,
   ⟨12018531147923, 13500757690947486301, 43⟩, ⟨12619457705359, 6428932233764215863, 42⟩,
   ⟨13250430590651, 12245585207147708807, 43⟩, ⟨13912952120191, 5831231051019596017, 42⟩,
   ⟨14608599726313, 11107106763761352371, 43⟩, ⟨15339029712647, 5289098458927649999, 42⟩,
   ⟨16105981198301, 10074473255086743393, 43⟩, ⟨16911280258291, 9594736433373422667, 43⟩,
   ⟨17756844271213, 4568922111128284349, 42⟩, ⟨18644686484807, 17405417566171854693, 44⟩,
   ⟨19576920809087, 16576588158225335937, 44⟩, ⟨20555766849589, 15787226817320866675, 44⟩,
   ⟨21583555192079, 15035454111726809437, 44⟩, ⟨22662732951713, 14319480106387498043, 44⟩,
   ⟨23795869599331, 3409400025325721667, 42⟩, ⟨24985663079317, 811761910791206579, 40⟩,
   ⟨26234946233311, 6184852653640651897, 43⟩, ⟨27546693545051, 5890335860594224949, 43⟩,
   ⟨28924028222329, 5609843676751468661, 43⟩, ⟨30370229633461, 10685416527140183503, 44⟩,
   ⟨31888741115167, 10176587168694421405, 44⟩, ⟨33483178170971, 4845993889847879495, 43⟩,
   ⟨35157337079519, 9230464552091343439, 44⟩, ⟨36915203933497, 8790918621038886521, 44⟩,
   ⟨38760964130257, 16744606897180142191, 45⟩, ⟨40699012336781, 15947244663976718855, 45⟩,
   ⟨42733962953639, 7593926030461736757, 44⟩, ⟨44870661101341, 14464621010396844739, 45⟩,
   ⟨47114194156493, 13775829533686441975, 45⟩, ⟨49469903864351, 13119837651121100035, 45⟩,
   ⟨51943399057603, 12495083477249903497, 45⟩, ⟨54540569010611, 5950039751057434971, 44⟩,
   ⟨57267597461141, 11333409049633318315, 45⟩, ⟨60130977334199, 10793722904412513581, 45⟩,
   ⟨63137526200921, 2569934024859631801, 43⟩, ⟨66294402511313, 4895112428278515971, 44⟩,
   ⟨69609122636917, 9324023672906322075, 45⟩, ⟨73089578768803, 17760045091240381233, 46⟩,
   ⟨76744057707277, 8457164329158356045, 45⟩, ⟨80581260592649, 8054442218245238749, 45⟩,
   ⟨84610323622289, 7670897350709066695, 45⟩, ⟨88840839803449, 14611233048962159455, 46⟩,
   ⟨93282881793631, 1739432505828650429, 43⟩, ⟨97947025883323, 13252819092026398845, 46⟩,
   ⟨102844377177559, 12621732468587997881, 46⟩, ⟨107986596036437, 3005174397282855247, 44⟩,
   ⟨113385925838287, 2862070854554389677, 44⟩, ⟨119055222130219, 10903127064967487137, 46⟩,
   ⟨125007983236757, 10383930538062026525, 46⟩, ⟨131258382398683, 9889457655290526595, 46⟩,
   ⟨137821301518801, 4709265550132063961, 45⟩, ⟨144712366594753, 4485014809649214363, 45⟩,
   ⟨151947984924497, 17085770703424864501, 47⟩, ⟨159545384170751, 16272162574687374111, 47⟩,
   ⟨167522653379297, 3874324422544417459, 45⟩, ⟨175898786048299, 3689832783374856379, 45⟩,
   ⟨184693725350723, 14056505841427335531, 47⟩, ⟨193928411618287, 836696776275316481, 43⟩,
   ⟨203624832199223, 12749665162289181271, 47⟩, ⟨213806073809197, 12142538249798490477, 47⟩,
   ⟨224496377499701, 5782161071331477379, 46⟩, ⟨235721196374689, 11013640135869342889, 47⟩,
   ⟨247507256193427, 5244590540890088057, 46⟩, ⟨259882619003297, 4994848134177218265, 46⟩,
   ⟨272876749953557, 4756998223024263429, 46⟩, ⟨286520587451237, 4530474498118312127, 46⟩,
   ⟨300846616823833, 17258950469020182321, 48⟩, ⟨315888947665051, 16437095684779754913, 48⟩,
   ⟨331683395048363, 15654376842644579785, 48⟩, ⟨348267564800807, 14908930326327064615, 48⟩,
   ⟨365680943040869, 7099490631583896161, 47⟩, ⟨383964990193007, 3380709824562927589, 46⟩,
   ⟨403163239702661, 6439447284881708537, 47⟩, ⟨423321401687831, 12265613875964088503, 48⟩,
   ⟨444487471772237, 11681537024727323577, 48⟩, ⟨466711845360847, 11125273356883209411, 48⟩,
   ⟨490047437628913, 1324437304390794345, 45⟩, ⟨514549809510377, 10090950890596168477, 48⟩,
   ⟨540277299986003, 4805214709806746285, 47⟩, ⟨567291164985341, 18305579846881621631, 49⟩,
   ⟨595655723234653, 8716942784228685827, 48⟩, ⟨625438509396409, 4150925135346838281, 47⟩,
   ⟨656710434866231, 3953262033663646175, 47⟩, ⟨689545956609611, 15060045842526680921, 49⟩,
   ⟨724023254440627, 14342900802395755517, 49⟩, ⟨760224417162697, 6829952763045250629, 48⟩,
   ⟨798235638020831, 13009433834371919813, 49⟩, ⟨838147419921883, 6194968492557979815, 48⟩,
   ⟨880054790918011, 5899969992912134795, 48⟩, ⟨924057530463983, 5619019040868265331, 48⟩,
   ⟨970260406987181, 10702893411177660935, 49⟩, ⟨1018773427336681, 5096615910083895315, 48⟩,
   ⟨1069712098703531, 4853919914365542211, 48⟩, ⟨1123197703638737, 4622780870824204707, 48⟩,
   ⟨1179357588820721, 8805296896807656935, 49⟩, ⟨1238325468261769, 16771994089157279929, 50⟩,
   ⟨1300241741674879, 15973327703959049479, 50⟩, ⟨1365253828758623, 15212693051389570375, 50⟩,
   ⟨1433516520196571, 905517443535082831, 46⟩, ⟨1505192346206447, 13798361044343684347, 50⟩,
   ⟨1580451963516779, 1642662029088523821, 47⟩, ⟨1659474561692683, 6257760110813178781, 49⟩,
   ⟨1742448289777331, 11919543068215483887, 50⟩, ⟨1829570704266313, 1418993222406515683, 47⟩,
   ⟨1921049239479793, 10811376932620146933, 50⟩, ⟨2017101701453837, 5148274729818978869, 49⟩,
   ⟨2117956786526611, 1225779697575899805, 47⟩, ⟨2223854625852991, 9339273886292362273, 50⟩,
   ⟨2335047357145673, 17789093116747109497, 51⟩, ⟨2451799725002977, 16941993444520916045, 51⟩,
   ⟨2574389711253163, 8067615925962224553, 50⟩, ⟨2703109196815823, 7683443739011637173, 50⟩,
   ⟨2838264656656643, 14635130931450588711, 51⟩, ⟨2980177889489539, 13938219934714547767, 51⟩,
   ⟨3129186783964027, 13274495175918570045, 51⟩, ⟨3285646123162259, 12642376358017567823, 51⟩,
   ⟨3449928429320413, 12040358436207064185, 51⟩, ⟨3622424850786461, 11467008034482831693, 51⟩,
   ⟨3803546093325871, 10920960032840542433, 51⟩, ⟨3993723397992173, 10400914316990970787, 51⟩,
   ⟨4193409567891821, 4952816341424225327, 50⟩, ⟨4403080046286421, 9433935888427076685, 51⟩,
   ⟨4623234048600743, 561543802882563973, 47⟩, ⟨4854395751030779, 17113715897373382279, 52⟩,
   ⟨5097115538582321, 4074694261279374295, 50⟩, ⟨5351971315511461, 7761322402436868687, 51⟩,
   ⟨5619569881287097, 7391735621368363567, 51⟩, ⟨5900548375351481, 7039748210826978143, 51⟩,
   ⟨6195575794119307, 13409044211098460693, 52⟩, ⟨6505354583825287, 99769674189720465, 45⟩,
   ⟨6830622313016639, 12162398377413386333, 52⟩, ⟨7172153428667531, 11583236549917413811, 52⟩,
   ⟨7530761100100921, 11031653857064183927, 52⟩, ⟨7907299155105991, 5253168503363881197, 51⟩,
   ⟨8302664112861337, 1250754405562821859, 49⟩, ⟨8717797318504493, 4764778687858320261, 51⟩,
   ⟨9153687184429741, 9075768929253920203, 52⟩, ⟨9611371543651247, 17287178912864575827, 53⟩,
   ⟨10091940120833861, 8231989958506898739, 52⟩, ⟨10596537126875629, 15679980873346362883, 53⟩,
   ⟨11126363983219531, 7466657558736282379, 52⟩, ⟨11682682182380519, 14222204873783381069, 53⟩,
   ⟨12266816291499617, 3386239255662689889, 51⟩, ⟨12880157106074683, 1612494883648889287, 50⟩,
   ⟨13524164961378517, 12285675303991446719, 53⟩, ⟨14200373209447571, 11700643146658415093, 53⟩,
   ⟨14910391869919981, 5571734831742090673, 52⟩, ⟨15655911463415981, 2653207062734328731, 51⟩,
   ⟨16438707036586829, 10107455477083126973, 53⟩, ⟨17260642388416249, 1203268509176557259, 50⟩,
   ⟨18123674507837099, 9167760069916607741, 53⟩, ⟨19029858233228981, 17462400133174466113, 54⟩,
   ⟨19981351144890479, 16630857269689926985, 54⟩, ⟨20980418702135003, 15838911685418978043, 54⟩,
   ⟨22029439637241899, 15084677795637022075, 54⟩, ⟨23130911619104053, 14366359805368555777, 54⟩,
   ⟨24287457200059267, 13682247433684332441, 54⟩, ⟨25501830060062243, 13030711841604119671, 54⟩,
   ⟨26776921563065419, 193909402404822747, 48⟩, ⟨28115767641218743, 11819239765627268945, 54⟩,
   ⟨29521556023279703, 2814104706101728523, 52⟩, ⟨30997633824443711, 670024930024220583, 50⟩,
   ⟨32547515515665947, 10209903695607154963, 54⟩, ⟨34174891291449269, 4861858902670070285, 53⟩,
   ⟨35883635856021739, 9260683624133465519, 54⟩, ⟨37677817648822853, 4409849344825456605, 53⟩,
   ⟨39561708531264013, 4199856518881385401, 53⟩, ⟨41539793957827267, 15999453405262400027, 55⟩,
   ⟨43616783655718643, 15237574671678471797, 55⟩, ⟨45797622838504627, 14511975877789004329, 55⟩,
   ⟨48087503980429867, 13820929407418096875, 55⟩, ⟨50491879179451373, 13162789911826755631, 55⟩,
   ⟨53016473138423957, 6267995196107977057, 54⟩, ⟨55667296795345217, 11939038468777085827, 55⟩,
   ⟨58450661635112503, 5685256413703371757, 54⟩, ⟨61373194716868207, 10829059835625456101, 55⟩,
   ⟨64441854452711651, 10313390319643286139, 55⟩, ⟨67663947175347401, 2455569123724585861, 53⟩,
   ⟨71047144534114849, 4677274521380158413, 54⟩, ⟨74599501760820593, 1113636790804799599, 52⟩,
   ⟨78329476848861697, 16969703478930263497, 56⟩, ⟨82245950691304817, 2020202795110744791, 53⟩,
   ⟨86358248225870107, 7696010648040928157, 55⟩, ⟨90676160637163627, 7329533950515168489, 55⟩,
   ⟨95209968669021809, 3490254262150080209, 54⟩, ⟨99970467102473027, 6648103356476334773, 55⟩,
   ⟨104968990457596879, 12663054012335851553, 56⟩, ⟨110217439980476921, 12060051440319836951, 56⟩,
   ⟨115728311979501007, 2871440819123764749, 54⟩, ⟨121514727578476087, 2734705542022632427, 54⟩,
   ⟨127590463957399943, 5208962937185964419, 55⟩, ⟨133969987155270011, 1240229270758562301, 53⟩,
   ⟨140668486513033511, 9449365872446188997, 56⟩, ⟨147701910838685293, 17998792137992727975, 57⟩,
   ⟨155087006380619567, 17141706798088311323, 57⟩, ⟨162841356699650569, 8162717522899194683, 56⟩,
   ⟨170983424534633129, 7774016688475422073, 56⟩, ⟨179532595761364817, 14807650835191277537, 57⟩,
   ⟨188509225549433093, 14102524604944071215, 57⟩, ⟨197934686826904793, 13430975814232445699, 57⟩,
   ⟨207831421168250129, 12791405537364228069, 57⟩, ⟨218222992226662673, 6091145493982964699, 56⟩,
   ⟨229134141837995873, 11602181893300881781, 57⟩, ⟨240590848929895999, 5524848520619459883, 56⟩,
   ⟨252620391376390847, 10523520991656112061, 57⟩, ⟨265251410945210549, 10022400944434386407, 57⟩,
   ⟨278513981492471381, 9545143756604167093, 57⟩, ⟨292439680567094981, 18181226203055554443, 58⟩,
   ⟨307061664595449749, 270553961354993353, 52⟩, ⟨322414747825222259, 16490908120685307981, 58⟩,
   ⟨338535485216483417, 7852813390802526565, 57⟩, ⟨355462259477307673, 7478869896002404461, 57⟩,
   ⟨373235372451173171, 14245466468576004133, 58⟩, ⟨391897141073731841, 13567110922453336873, 58⟩,
   ⟨411491998127418553, 12921058021384126589, 58⟩, ⟨432066598033789489, 6152884772087679209, 57⟩,
   ⟨453669927935478967, 11719780518262246021, 58⟩, ⟨476353424332252979, 2790423932919582013, 56⟩,
   ⟨500171095548865693, 5315093205561107905, 57⟩, ⟨525179650326309179, 10123987058211630223, 58⟩,
   ⟨551438632842624641, 9641892436392028731, 58⟩, ⟨579010564484755961, 18365509402651480507, 59⟩,
   ⟨607961092708993897, 17490961335858548895, 59⟩, ⟨638359147344443641, 16658058415103378617, 59⟩,
   ⟨670277104711665961, 495775548068552833, 54⟩, ⟨703790959947249319, 15109350036374942195, 59⟩,
   ⟨738980507944611817, 3597464294374986081, 57⟩, ⟨775929533341842413, 13704625883333280217, 59⟩,
   ⟨814726010008934533, 13052024650793600217, 59⟩, ⟨855462310509381313, 6215249833711237811, 58⟩,
   ⟨898235426034850433, 184977673622358257, 53⟩, ⟨943147197336593023, 11274829630315169133, 59⟩,
   ⟨990304557203422691, 10737932981252541849, 59⟩, ⟨1039819785063593969, 10226602839288133683, 59⟩,
   ⟨1091810774316773677, 9739621751702984375, 59⟩, ⟨1146401313032612359, 9275830239717127991, 59⟩,
   ⟨1203721378684243091, 8834124037825835345, 59⟩, ⟨1263907447618455529, 8413451464596031775, 59⟩,
   ⟨1327102819999378337, 16025621837325774429, 60⟩, ⟨1393457960999347253, 15262496987929308989, 60⟩,
   ⟨1463130859049314661, 908481963567220745, 56⟩, ⟨1536287402001780431, 6921767341464538843, 59⟩,
   ⟨1613101772101869463, 1648039843205842571, 57⟩, ⟨1693756860706962959, 6278247021736543043, 59⟩,
   ⟨1778444703742311217, 11958565755688652675, 60⟩, ⟨1867366938929426969, 5694555121756500691, 59⟩,
   ⟨1960735285875898321, 10846771660488572725, 60⟩, ⟨2058772050169693399, 5165129362137415177, 59⟩,
   ⟨2161710652678178227, 2459585410541626095, 58⟩, ⟨2269796185312087163, 9369849183015718355, 60⟩,
   ⟨2383285994577691523, 17847331777172796853, 61⟩, ⟨2502450294306576181, 8498729417701331557, 60⟩,
   ⟨2627572809021905011, 4047014008429205471, 59⟩, ⟨2758951449473000293, 7708598111293724619, 60⟩,
   ⟨2896899021946650319, 14683044021511856359, 61⟩, ⟨3041743973043982909, 6991925724529455239, 60⟩,
   ⟨3193831171696182079, 13317953761008486067, 61⟩, ⟨3353522730280991201, 12683765486674748567, 61⟩,
   ⟨3521198866795040881, 12079776653975950605, 61⟩, ⟨3697258810134792971, 11504549194262809957, 61⟩,
   ⟨3882121750641532621, 1369589189793191661, 58⟩, ⟨4076227838173609267, 5217482627783587261, 60⟩,
   ⟨4280039230082289733, 38820555266246929, 53⟩, ⟨4494041191586404219, 2366205273371241387, 59⟩,
   ⟨4718743251165724471, 9014115327128538539, 61⟩, ⟨4954680413724010873, 8584871740122417347, 61⟩,
   ⟨5202414434410211531, 16352136647852223159, 62⟩, ⟨5462535156130722121, 7786731737072487199, 61⟩,
   ⟨5735661913937258341, 14831869975376165799, 62⟩, ⟨6022445009634121283, 1765698806592400683, 59⟩,
   ⟨6323567260115827453, 6726471644161526299, 61⟩, ⟨6639745623121618859, 12812326941260050029, 62⟩,
   ⟨6971732904277699861, 12202216134533380877, 62⟩, ⟨7320319549491584971, 11621158223365124459, 62⟩,
   ⟨7686335526966164273, 11067769736538213693, 62⟩, ⟨8070652303314472717, 5270366541208673037, 61⟩,
   ⟨8474184918480196373, 627424588239127741, 58⟩, ⟨8897894164404206201, 2390188907577629487, 60⟩,
   ⟨9342788872624416551, 9105481552676683721, 62⟩, ⟨9809928316255637389, 17343774386050826117, 63⟩,
   ⟨10300424732068419343, 16517880367667453309, 63⟩, ⟨10815445968671840317,
   7865657317936882523, 62⟩, ⟨11356218267105432353, 7491102207558935723, 62⟩, ⟨11924029180460704009,
   7134383054818033999, 62⟩, ⟨12520230639483739223, 6794650528398127611, 62⟩, ⟨13146242171457926281,
   3235547870665775029, 61⟩, ⟨13803554280030822631, 12325896650155333411, 63⟩,
   ⟨14493731994032363789, 11738949190624127037, 63⟩, ⟨15218418593733982013, 1397493951264777025,
   60⟩, ⟨15979339523420681189, 1330946620252168589, 60⟩, ⟨16778306499591715409,
   10140545678111760581, 63⟩, ⟨17617221824571301183, 9657662550582629123, 63⟩]

/-- The loop of `pick`. -/
def pickLoop (table : List Prime) (desiredSize : UInt64) (lower upper : ℕ) (h : lower ≤ upper) :
    Prime :=
  if hne : lower = upper then table.getD lower default
  else
    let middle := lower + (upper - lower) / 2
    let p := table.getD middle default
    if p.value < desiredSize then pickLoop table desiredSize (middle + 1) upper (by omega)
    else if p.value > desiredSize then pickLoop table desiredSize lower middle (by omega)
    else p
termination_by upper - lower

/-- `pick`. -/
def pick (desiredSize : UInt64) : Prime :=
  let last := primes.getD (primes.length - 1) default
  if desiredSize ≥ last.value then last
  else pickLoop primes desiredSize 0 (primes.length - 1) (Nat.zero_le _)

/-! ### Division -/

/-- `magic` and `shift` make a reciprocal of `value`. -/
theorem primes_reciprocal :
    ∀ p ∈ primes, Reciprocal (2 ^ 64) p.value.toNat p.magic.toNat (2 ^ 64 * 2 ^ p.shift.toNat) ∧
      p.shift.toNat < 64 := by
  decide +kernel

variable {p q : Prime}

theorem toNat_div (hp : p ∈ primes) (x : UInt64) : (p.div x).toNat = x.toNat / p.value.toNat := by
  obtain ⟨hrec, hshift⟩ := primes_reciprocal p hp
  have hlt : x.toNat * p.magic.toNat / 2 ^ 64 < 2 ^ 64 := by
    rw [Nat.div_lt_iff_lt_mul (by positivity)]
    exact Nat.mul_lt_mul'' x.toNat_lt p.magic.toNat_lt
  rw [div, UInt64.toNat_shiftRight, UInt64.toNat_ofNat', Nat.mod_eq_of_lt hlt,
    Nat.mod_eq_of_lt hshift, Nat.shiftRight_eq_div_pow, Nat.div_div_eq_div_mul]
  exact hrec.div_eq x.toNat_lt

theorem toNat_mod (hp : p ∈ primes) (x : UInt64) : (p.mod x).toNat = x.toNat % p.value.toNat := by
  have hle : x.toNat / p.value.toNat * p.value.toNat ≤ x.toNat := Nat.div_mul_le_self _ _
  have hmul : (p.div x * p.value).toNat = x.toNat / p.value.toNat * p.value.toNat := by
    rw [UInt64.toNat_mul, toNat_div hp, Nat.mod_eq_of_lt (hle.trans_lt x.toNat_lt)]
  rw [mod, UInt64.toNat_sub_of_le _ _ (by rw [UInt64.le_iff_toNat_le, hmul]; exact hle), hmul,
    Nat.mod_eq_sub_mul_div, mul_comm]

/-- The division of the table is exact, for all arguments. -/
theorem div_mod_exact :
    ∀ p ∈ primes, ∀ x : UInt64, p.div x = x / p.value ∧ p.mod x = x % p.value := by
  intro p hp x
  constructor
  · rw [← UInt64.toNat_inj, toNat_div hp, UInt64.toNat_div]
  · rw [← UInt64.toNat_inj, toNat_mod hp, UInt64.toNat_mod]

theorem div_mod_exact_last :
    (⟨17617221824571301183, 9657662550582629123, 63⟩ : Prime).div 18446744073709551615 = 1 ∧
      (⟨17617221824571301183, 9657662550582629123, 63⟩ : Prime).mod 18446744073709551615 =
      829522249138250432 := by
  obtain ⟨hdiv, hmod⟩ := div_mod_exact ⟨17617221824571301183, 9657662550582629123, 63⟩
    (by decide +kernel) 18446744073709551615
  rw [hdiv, hmod]
  decide

/-! ### Search -/

/-- The numbers of the table increase. -/
theorem primes_sorted : primes.Pairwise fun p q => p.value < q.value := by
  rw [← List.isChain_iff_pairwise]
  decide +kernel

section Search

variable {table : List Prime} {desiredSize : UInt64} {lower upper : ℕ}

theorem value_lt_of_lt (hs : table.Pairwise fun p q => p.value < q.value) {i j : ℕ} (hij : i < j)
    (hj : j < table.length) : (table.getD i default).value < (table.getD j default).value := by
  rw [List.getD_eq_getElem _ _ (hij.trans hj), List.getD_eq_getElem _ _ hj]
  exact List.pairwise_iff_getElem.mp hs i j (hij.trans hj) hj hij

/-- The loop finds the first number that is large enough, if there is one up to `upper`, and none
below `lower`. -/
theorem pickLoop_spec (hs : table.Pairwise fun p q => p.value < q.value) (h : lower ≤ upper)
    (hlt : upper < table.length) (hlower : ∀ i < lower, (table.getD i default).value < desiredSize)
    (hupper : desiredSize ≤ (table.getD upper default).value) :
    ∃ j < table.length, pickLoop table desiredSize lower upper h = table.getD j default ∧
      desiredSize ≤ (table.getD j default).value ∧
      ∀ i < j, (table.getD i default).value < desiredSize := by
  fun_induction pickLoop table desiredSize lower upper h with
  | case1 upper h => exact ⟨upper, hlt, rfl, hupper, hlower⟩
  | case2 lower upper h hne middle p hp ih =>
    -- the middle is too small, and so is what is before it
    refine ih hlt (fun i hi => ?_) hupper
    rcases Nat.lt_succ_iff_lt_or_eq.mp hi with hi | rfl
    · exact UInt64.lt_trans (value_lt_of_lt hs hi (by omega)) hp
    · exact hp
  | case3 lower upper h hne middle p hp hp' ih => exact ih (by omega) hlower (UInt64.le_of_lt hp')
  | case4 lower upper h hne middle p hp hp' =>
    have heq : p.value = desiredSize :=
      UInt64.le_antisymm (UInt64.not_lt.mp hp') (UInt64.not_lt.mp hp)
    refine ⟨middle, by omega, rfl, heq ▸ UInt64.le_refl _, fun i hi => ?_⟩
    rw [← heq]
    exact value_lt_of_lt hs hi (by omega)

end Search

theorem length_primes : primes.length = 814 := by decide +kernel

/-- The last number of the table. -/
theorem last_value : (primes.getD (primes.length - 1) default).value = 17617221824571301183 := by
  decide +kernel

theorem le_last (hp : p ∈ primes) : p.value ≤ (primes.getD (primes.length - 1) default).value := by
  obtain ⟨i, hi, rfl⟩ := List.getElem_of_mem hp
  rw [← List.getD_eq_getElem _ default hi]
  rcases (Nat.le_sub_one_of_lt hi).lt_or_eq with hlt | heq
  · exact UInt64.le_of_lt (value_lt_of_lt primes_sorted hlt (by omega))
  · rw [heq]
    exact UInt64.le_refl _

/-- From the last number on, the search answers the last number. -/
theorem getLast_of_last_le {n : UInt64} (hn : 17617221824571301183 ≤ n) :
    primes.getLast? = some (pick n) := by
  have hlen := length_primes
  have hpick : pick n = primes.getD (primes.length - 1) default := if_pos (last_value ▸ hn)
  rw [hpick, List.getLast?_eq_getElem?, List.getD_eq_getElem _ _ (by omega)]
  exact List.getElem?_eq_getElem (by omega)

theorem pick_mem_le (n : UInt64) :
    pick n ∈ primes ∧ (n ≤ 17617221824571301183 → n ≤ (pick n).value) ∧ ∀ q ∈ primes, n ≤ q.value →
      (pick n).value ≤ q.value := by
  have hlen := length_primes
  have hmem : ∀ j < primes.length, primes.getD j default ∈ primes := by
    intro j hj
    rw [List.getD_eq_getElem _ _ hj]
    exact List.getElem_mem hj
  by_cases hlast : n ≥ (primes.getD (primes.length - 1) default).value
  · have hpick : pick n = primes.getD (primes.length - 1) default := if_pos hlast
    rw [hpick]
    refine ⟨hmem _ (by omega), fun hn => ?_, fun q _ hnq => UInt64.le_trans hlast hnq⟩
    rwa [last_value]
  · obtain ⟨j, hj, heq, hle, hlt⟩ :=
      pickLoop_spec primes_sorted (Nat.zero_le (primes.length - 1)) (by omega)
      (fun i hi => absurd hi (Nat.not_lt_zero i)) (UInt64.le_of_lt (UInt64.not_le.mp hlast))
    have hpick : pick n = primes.getD j default := (if_neg hlast).trans heq
    rw [hpick]
    refine ⟨hmem j hj, fun _ => hle, fun q hq hnq => ?_⟩
    obtain ⟨i, hi, rfl⟩ := List.getElem_of_mem hq
    rw [← List.getD_eq_getElem _ default hi] at hnq ⊢
    rcases lt_trichotomy i j with hij | rfl | hij
    · exact absurd (hlt i hij) (UInt64.not_lt.mpr hnq)
    · exact UInt64.le_refl _
    · exact UInt64.le_of_lt (value_lt_of_lt primes_sorted hij hi)

/-- Above 941 the numbers of the table are less than 7% apart. -/
def Near (p q : Prime) : Prop :=
  q.value.toNat ≤ 941 ∨ 100 * q.value.toNat ≤ 107 * (p.value.toNat + 1)

instance : DecidableRel Near := fun _ _ => inferInstanceAs (Decidable (_ ∨ _))

theorem primes_near : primes.IsChain Near := by decide +kernel

/-- Between the numbers of such a table none is far from the next. -/
theorem exists_near {l : List Prime} {n : UInt64} (hl : (p :: l).IsChain Near) (hp : p.value < n)
    (hn : 942 ≤ n.toNat) (hq : ∃ q ∈ l, n ≤ q.value) :
    ∃ q ∈ l, n ≤ q.value ∧ 100 * q.value.toNat ≤ 107 * n.toNat := by
  induction l generalizing p with
  | nil => simp at hq
  | cons r l ih =>
    obtain ⟨hnear, hl⟩ := List.isChain_cons_cons.mp hl
    by_cases hr : n ≤ r.value
    · refine ⟨r, List.mem_cons_self, hr, ?_⟩
      rw [UInt64.le_iff_toNat_le] at hr
      rw [UInt64.lt_iff_toNat_lt] at hp
      rcases hnear with h | h <;> omega
    · obtain ⟨q, hq, hnq⟩ := hq
      have hql : q ∈ l := by
        rcases List.mem_cons.mp hq with rfl | hq
        · exact absurd hnq hr
        · exact hq
      obtain ⟨q', hq', h⟩ := ih hl (UInt64.not_le.mp hr) ⟨q, hql, hnq⟩
      exact ⟨q', List.mem_cons_of_mem _ hq', h⟩

/-- From 942 on the search answers at most 7% more than was asked for. -/
theorem pick_near {n : UInt64} (hn : 942 ≤ n) : 100 * (pick n).value.toNat ≤ 107 * n.toNat := by
  obtain ⟨hmem, hle, hleast⟩ := pick_mem_le n
  by_cases hlast : n ≤ 17617221824571301183
  swap
  · -- the last number of the table, which is below
    have hpick : pick n = primes.getD (primes.length - 1) default :=
      if_pos (last_value ▸ UInt64.le_of_lt (UInt64.not_le.mp hlast))
    have := UInt64.lt_iff_toNat_lt.mp (UInt64.not_le.mp hlast)
    rw [hpick, last_value]
    omega
  have hnear := primes_near
  have hfirst : (primes.getD 0 default).value = 3 := by decide +kernel
  have hn : 942 ≤ n.toNat := UInt64.le_iff_toNat_le.mp hn
  cases hprimes : primes with
  | nil => simp [hprimes] at hmem
  | cons p l =>
    rw [hprimes] at hnear hfirst hmem
    have hp : p.value = 3 := hfirst
    have hpn : p.value < n := by
      rw [hp, UInt64.lt_iff_toNat_lt]
      exact (by decide : (3 : UInt64).toNat < 942).trans_le hn
    have hl : pick n ∈ l := by
      rcases List.mem_cons.mp hmem with heq | hl
      · have := hle hlast
        rw [heq] at this
        exact absurd this (UInt64.not_le.mpr hpn)
      · exact hl
    obtain ⟨q, hq, hnq, hbound⟩ := exists_near hnear hpn hn ⟨_, hl, hle hlast⟩
    have := UInt64.le_iff_toNat_le.mp
      (hleast q (by rw [hprimes]; exact List.mem_cons_of_mem _ hq) hnq)
    omega

/-- `pick` answers the smallest number of the table that is not less than the argument, and the last
number of the table if all are less; from 942 on it answers at most 7% more than was asked for. -/
theorem pick_least :
    ∀ n : UInt64, pick n ∈ primes ∧ (∀ q ∈ primes, n ≤ q.value → (pick n).value ≤ q.value) ∧
      ((∃ q ∈ primes, n ≤ q.value) → n ≤ (pick n).value) ∧
      ((∀ q ∈ primes, q.value < n) → primes.getLast? = some (pick n)) ∧
      (942 ≤ n → 100 * (pick n).value.toNat ≤ 107 * n.toNat) := by
  intro n
  obtain ⟨hmem, hle, hleast⟩ := pick_mem_le n
  have hlast : (primes.getD (primes.length - 1) default) ∈ primes := by
    have := length_primes
    rw [List.getD_eq_getElem _ _ (by omega)]
    exact List.getElem_mem _
  refine ⟨hmem, hleast, fun hsome => ?_, fun hall =>
    getLast_of_last_le (UInt64.le_of_lt ?_), pick_near⟩
  · obtain ⟨q, hq, hnq⟩ := hsome
    exact hle (UInt64.le_trans hnq (last_value ▸ le_last hq))
  · have := hall _ hlast
    rwa [last_value] at this

end Prime

/-! ### The indexer -/

/-- The numbers of the table. -/
def Primes.source : Primes where
  table := Prime.primes.map fun p => p.value.toNat
  pos := by decide +kernel
  lt := by
    intro p hp
    obtain ⟨q, -, rfl⟩ := List.mem_map.mp hp
    exact q.value.toNat_lt
  large := ⟨4437975361, by decide +kernel, by norm_num⟩

/-- `BucketIndexer`, with `USE_PRIMES = 1`. -/
structure PrimeIndexer where
  /-- `_prime`. -/
  prime : Prime

namespace PrimeIndexer

/-- `BucketIndexer(requested_buckets)`. -/
def construct (requestedBuckets : UInt32) : PrimeIndexer := ⟨Prime.pick requestedBuckets.toUInt64⟩

/-- `buckets()`. -/
def buckets (i : PrimeIndexer) : UInt32 := i.prime.value.toUInt32

/-- `operator()`. -/
def index (i : PrimeIndexer) (hash : UInt64) : UInt64 := i.prime.mod hash

end PrimeIndexer

variable {n : UInt32}

/-- The search in 64 bits is the rounding of the sizes. -/
theorem Primes.pick_source (n : UInt32) :
    Primes.source.pick n.toNat = (Prime.pick n.toUInt64).value.toNat := by
  obtain ⟨hmem, hle, hleast⟩ := Prime.pick_mem_le n.toUInt64
  have hn : n.toUInt64.toNat = n.toNat := UInt32.toNat_toUInt64 n
  obtain ⟨hpick, hge⟩ := Primes.source.pick_mem n.toNat_lt
  refine le_antisymm (Primes.source.pick_le (List.mem_map_of_mem hmem) ?_) ?_
  · rw [← hn, ← UInt64.le_iff_toNat_le]
    refine hle (UInt64.le_iff_toNat_le.mpr ?_)
    have hlast : (17617221824571301183 : UInt64).toNat = 17617221824571301183 := rfl
    have := n.toNat_lt
    rw [hn, hlast]
    omega
  · obtain ⟨q, hq, hqv⟩ := List.mem_map.mp hpick
    rw [← hqv, ← UInt64.le_iff_toNat_le]
    refine hleast q hq (UInt64.le_iff_toNat_le.mpr ?_)
    rw [hn, hqv]
    exact hge

namespace PrimeIndexer

theorem toNat_buckets (n : UInt32) :
    (construct n).buckets.toNat = Mode.buckets (.primes .source) n := by
  rw [Mode.buckets, Primes.pick_source]
  rfl

theorem toNat_index (n : UInt32) (hash : UInt64) :
    ((construct n).index hash).toNat = Mode.index (.primes .source) n hash := by
  rw [Mode.index, Primes.pick_source]
  exact Prime.toNat_mod (Prime.pick_mem_le _).1 hash

/-- The largest number of the table that fits into 32 bits. -/
theorem lt_of_mem_source : ∀ p ∈ Primes.source.table, p < 2 ^ 32 → p ≤ 4226643191 := by
  decide +kernel

theorem mem_source : 4226643191 ∈ Primes.source.table := by decide +kernel

/-- There are as many buckets as requested, and hash values are reduced to one of them, exactly when
the request is not above the last number of the table that fits into 32 bits. -/
theorem lawful_iff :
    ∀ n : UInt32, (n ≤ (construct n).buckets ∧
      ∀ hash, ((construct n).index hash).toNat < (construct n).buckets.toNat) ↔
      n ≤ 4226643191 := by
  intro n
  have hlast : (4226643191 : UInt32).toNat = 4226643191 := rfl
  simp only [UInt32.le_iff_toNat_le, toNat_buckets, toNat_index, hlast]
  constructor
  · rintro ⟨-, hindex⟩
    have hlt := Mode.rounded_lt_of_index_lt hindex
    exact (Mode.le_rounded _ n).trans
      (lt_of_mem_source _ (Mode.offers_rounded (.primes .source) n) hlt)
  · intro hn
    have hlt : Mode.rounded (.primes .source) n < 2 ^ 32 :=
      (Mode.rounded_le (m := .primes .source) mem_source hn).trans_lt (by norm_num)
    rw [Mode.buckets_eq, Nat.mod_eq_of_lt hlt]
    refine ⟨Mode.le_rounded _ n, fun hash => ?_⟩
    rw [Mode.index_eq]
    exact Nat.mod_lt _ (Mode.rounded_pos _ n)

end PrimeIndexer

end TinyPointerTrees
