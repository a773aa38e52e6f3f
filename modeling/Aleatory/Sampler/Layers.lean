/-!
# Layers of the exponential density

The area under `exp (-x)` is cut into 256 layers of equal area.  `Layers.edge` lists their right
edges from the widest layer on, and `Layers.height` the density at each edge.  The widest layer
holds the tail: its first edge is the width of a rectangle of the same area.

The entries are those of the tables for exponential numbers in `rand_distr` 0.4.
-/

namespace Aleatory

namespace Layers

set_option maxRecDepth 4000

/-- The right edges, the widest first. -/
def edge : Vector Float 257 :=
  #v[
    8.697117470131052741, 7.697117470131050077, 6.941033629377212577, 6.478378493832569696,
    6.144164665772472667, 5.882144315795399869, 5.666410167454033697, 5.482890627526062488,
    5.323090505754398016, 5.181487281301500047, 5.054288489981304089, 4.938777085901250530,
    4.832939741025112035, 4.735242996601741083, 4.644491885420085175, 4.559737061707351380,
    4.480211746528421912, 4.405287693473573185, 4.334443680317273007, 4.267242480277365857,
    4.203313713735184365, 4.142340865664051464, 4.084051310408297830, 4.028208544647936762,
    3.974606066673788796, 3.923062500135489739, 3.873417670399509127, 3.825529418522336744,
    3.779270992411667862, 3.734528894039797375, 3.691201090237418825, 3.649195515760853770,
    3.608428813128909507, 3.568825265648337020, 3.530315889129343354, 3.492837654774059608,
    3.456332821132760191, 3.420748357251119920, 3.386035442460300970, 3.352149030900109405,
    3.319047470970748037, 3.286692171599068679, 3.255047308570449882, 3.224079565286264160,
    3.193757903212240290, 3.164053358025972873, 3.134938858084440394, 3.106389062339824481,
    3.078380215254090224, 3.050890016615455114, 3.023897504455676621, 2.997382949516130601,
    2.971327759921089662, 2.945714394895045718, 2.920526286512740821, 2.895747768600141825,
    2.871364012015536371, 2.847360965635188812, 2.823725302450035279, 2.800444370250737780,
    2.777506146439756574, 2.754899196562344610, 2.732612636194700073, 2.710636095867928752,
    2.688959688741803689, 2.667573980773266573, 2.646469963151809157, 2.625639026797788489,
    2.605072938740835564, 2.584763820214140750, 2.564704126316905253, 2.544886627111869970,
    2.525304390037828028, 2.505950763528594027, 2.486819361740209455, 2.467904050297364815,
    2.449198932978249754, 2.430698339264419694, 2.412396812688870629, 2.394289099921457886,
    2.376370140536140596, 2.358635057409337321, 2.341079147703034380, 2.323697874390196372,
    2.306486858283579799, 2.289441870532269441, 2.272558825553154804, 2.255833774367219213,
    2.239262898312909034, 2.222842503111036816, 2.206569013257663858, 2.190438966723220027,
    2.174449009937774679, 2.158595893043885994, 2.142876465399842001, 2.127287671317368289,
    2.111826546019042183, 2.096490211801715020, 2.081275874393225145, 2.066180819490575526,
    2.051202409468584786, 2.036338080248769611, 2.021585338318926173, 2.006941757894518563,
    1.992404978213576650, 1.977972700957360441, 1.963642687789548313, 1.949412758007184943,
    1.935280786297051359, 1.921244700591528076, 1.907302480018387536, 1.893452152939308242,
    1.879691795072211180, 1.866019527692827973, 1.852433515911175554, 1.838931967018879954,
    1.825513128903519799, 1.812175288526390649, 1.798916770460290859, 1.785735935484126014,
    1.772631179231305643, 1.759600930889074766, 1.746643651946074405, 1.733757834985571566,
    1.720942002521935299, 1.708194705878057773, 1.695514524101537912, 1.682900062917553896,
    1.670349953716452118, 1.657862852574172763, 1.645437439303723659, 1.633072416535991334,
    1.620766508828257901, 1.608518461798858379, 1.596327041286483395, 1.584191032532688892,
    1.572109239386229707, 1.560080483527888084, 1.548103603714513499, 1.536177455041032092,
    1.524300908219226258, 1.512472848872117082, 1.500692176842816750, 1.488957805516746058,
    1.477268661156133867, 1.465623682245745352, 1.454021818848793446, 1.442462031972012504,
    1.430943292938879674, 1.419464582769983219, 1.408024891569535697, 1.396623217917042137,
    1.385258568263121992, 1.373929956328490576, 1.362636402505086775, 1.351376933258335189,
    1.340150580529504643, 1.328956381137116560, 1.317793376176324749, 1.306660610415174117,
    1.295557131686601027, 1.284481990275012642, 1.273434238296241139, 1.262412929069615330,
    1.251417116480852521, 1.240445854334406572, 1.229498195693849105, 1.218573192208790124,
    1.207669893426761121, 1.196787346088403092, 1.185924593404202199, 1.175080674310911677,
    1.164254622705678921, 1.153445466655774743, 1.142652227581672841, 1.131873919411078511,
    1.121109547701330200, 1.110358108727411031, 1.099618588532597308, 1.088889961938546813,
    1.078171191511372307, 1.067461226479967662, 1.056759001602551429, 1.046063435977044209,
    1.035373431790528542, 1.024687873002617211, 1.014005623957096480, 1.003325527915696735,
    0.992646405507275897, 0.981967053085062602, 0.971286240983903260, 0.960602711668666509,
    0.949915177764075969, 0.939222319955262286, 0.928522784747210395, 0.917815182070044311,
    0.907098082715690257, 0.896370015589889935, 0.885629464761751528, 0.874874866291025066,
    0.864104604811004484, 0.853317009842373353, 0.842510351810368485, 0.831682837734273206,
    0.820832606554411814, 0.809957724057418282, 0.799056177355487174, 0.788125868869492430,
    0.777164609759129710, 0.766170112735434672, 0.755139984181982249, 0.744071715500508102,
    0.732962673584365398, 0.721810090308756203, 0.710611050909655040, 0.699362481103231959,
    0.688061132773747808, 0.676703568029522584, 0.665286141392677943, 0.653804979847664947,
    0.642255960424536365, 0.630634684933490286, 0.618936451394876075, 0.607156221620300030,
    0.595288584291502887, 0.583327712748769489, 0.571267316532588332, 0.559100585511540626,
    0.546820125163310577, 0.534417881237165604, 0.521885051592135052, 0.509211982443654398,
    0.496388045518671162, 0.483401491653461857, 0.470239275082169006, 0.456886840931420235,
    0.443327866073552401, 0.429543940225410703, 0.415514169600356364, 0.401214678896277765,
    0.386617977941119573, 0.371692145329917234, 0.356399760258393816, 0.340696481064849122,
    0.324529117016909452, 0.307832954674932158, 0.290527955491230394, 0.272513185478464703,
    0.253658363385912022, 0.233790483059674731, 0.212671510630966620, 0.189958689622431842,
    0.165127622564187282, 0.137304980940012589, 0.104838507565818778, 0.063852163815001570,
    0.000000000000000000]

/-- The densities at the edges. -/
def height : Vector Float 257 :=
  #v[
    0.000167066692307963, 0.000454134353841497, 0.000967269282327174, 0.001536299780301573,
    0.002145967743718907, 0.002788798793574076, 0.003460264777836904, 0.004157295120833797,
    0.004877655983542396, 0.005619642207205489, 0.006381905937319183, 0.007163353183634991,
    0.007963077438017043, 0.008780314985808977, 0.009614413642502212, 0.010464810181029981,
    0.011331013597834600, 0.012212592426255378, 0.013109164931254991, 0.014020391403181943,
    0.014945968011691148, 0.015885621839973156, 0.016839106826039941, 0.017806200410911355,
    0.018786700744696024, 0.019780424338009740, 0.020787204072578114, 0.021806887504283581,
    0.022839335406385240, 0.023884420511558174, 0.024942026419731787, 0.026012046645134221,
    0.027094383780955803, 0.028188948763978646, 0.029295660224637411, 0.030414443910466622,
    0.031545232172893622, 0.032687963508959555, 0.033842582150874358, 0.035009037697397431,
    0.036187284781931443, 0.037377282772959382, 0.038578995503074871, 0.039792391023374139,
    0.041017441380414840, 0.042254122413316254, 0.043502413568888197, 0.044762297732943289,
    0.046033761076175184, 0.047316792913181561, 0.048611385573379504, 0.049917534282706379,
    0.051235237055126281, 0.052564494593071685, 0.053905310196046080, 0.055257689676697030,
    0.056621641283742870, 0.057997175631200659, 0.059384305633420280, 0.060783046445479660,
    0.062193415408541036, 0.063615431999807376, 0.065049117786753805, 0.066494496385339816,
    0.067951593421936643, 0.069420436498728783, 0.070901055162371843, 0.072393480875708752,
    0.073897746992364746, 0.075413888734058410, 0.076941943170480517, 0.078481949201606435,
    0.080033947542319905, 0.081597980709237419, 0.083174093009632397, 0.084762330532368146,
    0.086362741140756927, 0.087975374467270231, 0.089600281910032886, 0.091237516631040197,
    0.092887133556043569, 0.094549189376055873, 0.096223742550432825, 0.097910853311492213,
    0.099610583670637132, 0.101322997425953631, 0.103048160171257702, 0.104786139306570145,
    0.106537004050001632, 0.108300825451033755, 0.110077676405185357, 0.111867631670056283,
    0.113670767882744286, 0.115487163578633506, 0.117316899211555525, 0.119160057175327641,
    0.121016721826674792, 0.122886979509545108, 0.124770918580830933, 0.126668629437510671,
    0.128580204545228199, 0.130505738468330773, 0.132445327901387494, 0.134399071702213602,
    0.136367070926428829, 0.138349428863580176, 0.140346251074862399, 0.142357645432472146,
    0.144383722160634720, 0.146424593878344889, 0.148480375643866735, 0.150551185001039839,
    0.152637142027442801, 0.154738369384468027, 0.156854992369365148, 0.158987138969314129,
    0.161134939917591952, 0.163298528751901734, 0.165478041874935922, 0.167673618617250081,
    0.169885401302527550, 0.172113535315319977, 0.174358169171353411, 0.176619454590494829,
    0.178897546572478278, 0.181192603475496261, 0.183504787097767436, 0.185834262762197083,
    0.188181199404254262, 0.190545769663195363, 0.192928149976771296, 0.195328520679563189,
    0.197747066105098818, 0.200183974691911210, 0.202639439093708962, 0.205113656293837654,
    0.207606827724221982, 0.210119159388988230, 0.212650861992978224, 0.215202151075378628,
    0.217773247148700472, 0.220364375843359439, 0.222975768058120111, 0.225607660116683956,
    0.228260293930716618, 0.230933917169627356, 0.233628783437433291, 0.236345152457059560,
    0.239083290262449094, 0.241843469398877131, 0.244625969131892024, 0.247431075665327543,
    0.250259082368862240, 0.253110290015629402, 0.255985007030415324, 0.258883549749016173,
    0.261806242689362922, 0.264753418835062149, 0.267725419932044739, 0.270722596799059967,
    0.273745309652802915, 0.276793928448517301, 0.279868833236972869, 0.282970414538780746,
    0.286099073737076826, 0.289255223489677693, 0.292439288161892630, 0.295651704281261252,
    0.298892921015581847, 0.302163400675693528, 0.305463619244590256, 0.308794066934560185,
    0.312155248774179606, 0.315547685227128949, 0.318971912844957239, 0.322428484956089223,
    0.325917972393556354, 0.329440964264136438, 0.332998068761809096, 0.336589914028677717,
    0.340217149066780189, 0.343880444704502575, 0.347580494621637148, 0.351318016437483449,
    0.355093752866787626, 0.358908472948750001, 0.362762973354817997, 0.366658079781514379,
    0.370594648435146223, 0.374573567615902381, 0.378595759409581067, 0.382662181496010056,
    0.386773829084137932, 0.390931736984797384, 0.395136981833290435, 0.399390684475231350,
    0.403694012530530555, 0.408048183152032673, 0.412454465997161457, 0.416914186433003209,
    0.421428728997616908, 0.425999541143034677, 0.430628137288459167, 0.435316103215636907,
    0.440065100842354173, 0.444876873414548846, 0.449753251162755330, 0.454696157474615836,
    0.459707615642138023, 0.464789756250426511, 0.469944825283960310, 0.475175193037377708,
    0.480483363930454543, 0.485871987341885248, 0.491343869594032867, 0.496901987241549881,
    0.502549501841348056, 0.508289776410643213, 0.514126393814748894, 0.520063177368233931,
    0.526104213983620062, 0.532253880263043655, 0.538516872002862246, 0.544898237672440056,
    0.551403416540641733, 0.558038282262587892, 0.564809192912400615, 0.571723048664826150,
    0.578787358602845359, 0.586010318477268366, 0.593400901691733762, 0.600968966365232560,
    0.608725382079622346, 0.616682180915207878, 0.624852738703666200, 0.633251994214366398,
    0.641896716427266423, 0.650805833414571433, 0.660000841079000145, 0.669506316731925177,
    0.679350572264765806, 0.689566496117078431, 0.700192655082788606, 0.711274760805076456,
    0.722867659593572465, 0.735038092431424039, 0.747868621985195658, 0.761463388849896838,
    0.775956852040116218, 0.791527636972496285, 0.808421651523009044, 0.826993296643051101,
    0.847785500623990496, 0.871704332381204705, 0.900469929925747703, 0.938143680862176477,
    1.000000000000000000]

/-- Where the tail begins. -/
def tail : Float := 7.697117470131050077

end Layers

end Aleatory
